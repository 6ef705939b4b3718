import WitBindgen.Moonbit.Coroutine
import WitBindgen.Library.Runs

/-!
# Local streams

`async/trait.mbt`: the pipe of a stream whose two ends are in one component.
Values go from a write straight to a read that waits, or through a buffer; a write
waits when the buffer is full, a read when there is nothing to read. A waiting read
or write leaves a record in a queue of the pipe. Whoever serves it takes the
coroutine out of the record, so that a cancelled call can tell whether it was served.

Reads and writes are numbered. Next to the pipe the state keeps what became of each
write and what was handed to each read.
-/

namespace WitBindgen

namespace Moonbit

namespace StreamPipe

abbrev ReadId := Nat
abbrev WriteId := Nat

/-- What a suspended coroutine waits for. -/
inductive Waits where
  | start
  | read (r : ReadId)
  | write (w : WriteId)
  | other
deriving DecidableEq

structure Reader (α : Type) where
  max : Nat
  value : Option (List α)
  ended : Bool
  coro : Option CoroId

structure Writer (α : Type) where
  value : Option (List α)
  accepted : Nat
  coro : Option CoroId

/-- A pipe and the coroutines that use it. Of each write `data` is what it offers
and `took` how many of these were taken: `accepted` are the values that went to a
read or into the buffer, `reclaimed` those that were given to the cleanup callback
at once. `results` are the numbers that writes returned, with none where the call
raised. `handed` is what reads were given, `readOut` what they returned. The values
that the drop of the reader found in the buffer are `removed`; `cleaned` lists the
calls of the cleanup callback and `discarded` the values for which there was none. -/
structure State (α : Type) where
  sched : Scheduler Waits
  capacity : Nat
  chunks : List (List α)
  buffered : Nat
  writerClosed : Bool
  readerDropped : Bool
  cleanup : Bool
  head : Option (List α)
  headPos : Nat
  readers : List ReadId
  writers : List WriteId
  reader : ReadId → Reader α
  writer : WriteId → Writer α
  reads : ReadId
  writes : WriteId
  data : WriteId → List α
  took : WriteId → Nat
  accepted : List (WriteId × List α)
  reclaimed : List (WriteId × List α)
  results : List (WriteId × Option Nat)
  handed : List (ReadId × List α)
  readOut : List (ReadId × List α)
  removed : List α
  cleaned : List α
  discarded : List α

/-- The first of a queue that is still waiting, and what is left of the queue. -/
def takeLive (live : Nat → Bool) : List Nat → Option Nat × List Nat
  | [] => (none, [])
  | n :: ns => if live n then (some n, ns) else takeLive live ns

namespace State

variable {α : Type} (s : State α)

/-- What is in the buffer. -/
def contents : List α := (s.head.getD []).drop s.headPos ++ s.chunks.flatten

def liveReader (r : ReadId) : Bool := (s.reader r).coro.isSome

def liveWriter (w : WriteId) : Bool := (s.writer w).coro.isSome && (s.writer w).value.isSome

/-- `wake_stream_pipe_reader`. -/
def wakeReader (r : ReadId) (value : Option (List α)) (ended : Bool) : State α :=
  match (s.reader r).coro with
  | some c => { s with
      reader := Function.update s.reader r { s.reader r with value, ended, coro := none }
      sched := s.sched.wake c }
  | none => s

/-- `wake_stream_pipe_writer`. -/
def wakeWriter (w : WriteId) (accepted : Nat) : State α :=
  match (s.writer w).coro with
  | some c => { s with
      writer := Function.update s.writer w ⟨none, accepted, none⟩
      took := Function.update s.took w accepted
      sched := s.sched.wake c }
  | none => { s with writer := Function.update s.writer w { s.writer w with value := none } }

/-- Values of a write are taken for a read or the buffer. -/
def accept (w : WriteId) (chunk : List α) : State α := { s with accepted := s.accepted ++ [(w, chunk)] }

def push (chunk : List α) : State α :=
  { s with chunks := s.chunks ++ [chunk], buffered := s.buffered + chunk.length }

def hand (r : ReadId) (chunk : List α) : State α := { s with handed := s.handed ++ [(r, chunk)] }

/-- The loop of `fill_stream_pipe_from_writers`. -/
def fillFrom (s : State α) : List WriteId → State α
  | [] => { s with writers := [] }
  | w :: ws =>
    if s.capacity ≤ s.buffered then { s with writers := w :: ws }
    else if s.liveWriter w then
      let chunk := ((s.writer w).value.getD []).take (s.capacity - s.buffered)
      fillFrom (((s.push chunk).accept w chunk).wakeWriter w chunk.length) ws
    else fillFrom s ws

/-- `fill_stream_pipe_from_writers`. -/
def fill : State α :=
  if s.capacity = 0 || s.writerClosed || s.readerDropped then s else s.fillFrom s.writers

/-- One turn of the last loop of `stream_pipe_drop_reader_with_cleanup`. -/
def dropWriter (cleanup : Bool) (s : State α) (w : WriteId) : State α :=
  match cleanup, (s.writer w).value with
  | true, some data =>
    { s with
      cleaned := s.cleaned ++ data
      reclaimed := s.reclaimed ++ [(w, data)] : State α }.wakeWriter w data.length
  | _, _ => s.wakeWriter w 0

/-- Its first part: the buffer is emptied. -/
def clear : State α :=
  { s with
    cleaned := if s.cleanup then s.cleaned ++ s.contents else s.cleaned
    discarded := if s.cleanup then s.discarded else s.discarded ++ s.contents
    removed := s.removed ++ s.contents
    head := none
    headPos := 0
    chunks := []
    buffered := 0
    readerDropped := true }

def endReaders : State α :=
  { s.readers.foldl (fun s r => s.wakeReader r none true) s with readers := [] }

/-- `stream_pipe_drop_reader`. -/
def dropReader : State α :=
  if s.readerDropped then s
  else
    let s := s.clear.endReaders
    { s.writers.foldl (dropWriter s.cleanup) s with writers := [] }

/-- `stream_pipe_reject_reader`, whose callback is used where there is no other. -/
def rejectReader : State α := { s with cleanup := true : State α }.dropReader

/-- `stream_pipe_close_writer`. -/
def closeWriter : State α :=
  if s.writerClosed then s
  else
    let s : State α := { s with writerClosed := true }
    let s : State α := { s.writers.foldl (fun s w => s.wakeWriter w 0) s with writers := [] }
    if s.buffered = 0 then s.endReaders else s

/-- A write that did not wait returns: `n` of `data` were taken. -/
def returnWrite (data : List α) (n : Nat) : State α :=
  { s with
    writes := s.writes + 1
    data := Function.update s.data s.writes data
    took := Function.update s.took s.writes n
    results := s.results ++ [(s.writes, some n)] }

/-- A read that did not wait returns values. -/
def returnRead (chunk : List α) : State α :=
  { s with
    reads := s.reads + 1
    handed := s.handed ++ [(s.reads, chunk)]
    readOut := s.readOut ++ [(s.reads, chunk)] }

/-- The end of `stream_pipe_write`, up to its suspension. -/
def waitWrite (c : CoroId) (data : List α) : State α :=
  let w := s.writes
  let s : State α := { s with
    writes := s.writes + 1
    writers := s.writers ++ [w]
    data := Function.update s.data w data
    took := Function.update s.took w 0 }
  if (s.sched.coros c).interrupted then
    -- `suspend` raises, and the record is given up
    { s with
      writer := Function.update s.writer w ⟨none, 0, none⟩
      results := s.results ++ [(w, none)] }
  else
    { s with
      writer := Function.update s.writer w ⟨some data, 0, some c⟩
      sched := s.sched.suspend c (.write w) }

/-- `stream_pipe_write`. -/
def write (c : CoroId) (data : List α) : State α :=
  if data.isEmpty || s.writerClosed || s.readerDropped then s.returnWrite data 0
  else
    match takeLive s.liveReader s.readers with
    | (some r, rest) =>
      let chunk := data.take (s.reader r).max
      let s : State α := ({ s with readers := rest : State α }.wakeReader r (some chunk) false).hand r chunk
      (s.accept s.writes chunk).returnWrite data chunk.length
    | (none, rest) =>
      let s : State α := { s with readers := rest }
      if 0 < s.capacity ∧ s.buffered < s.capacity then
        let chunk := data.take (s.capacity - s.buffered)
        ((s.push chunk).accept s.writes chunk).returnWrite data chunk.length
      else s.waitWrite c data

/-- The rest of `stream_pipe_write`, where `suspend` returned or raised. -/
def writeResumed (w : WriteId) (raised : Bool) : State α :=
  let n := if raised && (s.writer w).coro.isSome then none else some (s.writer w).accepted
  { s with
    writer := Function.update s.writer w
      { s.writer w with value := none, coro := if n = none then none else (s.writer w).coro }
    results := s.results ++ [(w, n)] }

/-- The next chunk of the buffer becomes its head. -/
def nextHead : State α :=
  match s.head, s.chunks with
  | none, chunk :: rest => { s with head := some chunk, headPos := 0, chunks := rest }
  | _, _ => s

/-- A read takes from the head of the buffer. -/
def readHead (head : List α) (count : Nat) : State α :=
  let chunk := (head.drop s.headPos).take count
  let pos := s.headPos + chunk.length
  ({ s with
    head := if head.length ≤ pos then none else some head
    headPos := if head.length ≤ pos then 0 else pos
    buffered := s.buffered - chunk.length : State α }.returnRead chunk).fill

/-- The end of the loop of `stream_pipe_read`, up to its suspension. -/
def waitRead (c : CoroId) (count : Nat) : State α :=
  let r := s.reads
  let s : State α := { s with reads := s.reads + 1, readers := s.readers ++ [r] }
  if (s.sched.coros c).interrupted then
    { s with reader := Function.update s.reader r ⟨count, none, false, none⟩ }
  else
    { s with
      reader := Function.update s.reader r ⟨count, none, false, some c⟩
      sched := s.sched.suspend c (.read r) }

/-- The loop of `stream_pipe_read`. -/
def readLoop (c : CoroId) (count : Nat) : State α :=
  if s.readerDropped then s
  else
    let s := s.nextHead
    match s.head with
    | some head => s.readHead head count
    | none =>
      match takeLive s.liveWriter s.writers with
      | (some w, rest) =>
        let chunk := ((s.writer w).value.getD []).take count
        ((({ s with writers := rest : State α }.accept w chunk).wakeWriter w chunk.length).returnRead chunk)
      | (none, rest) =>
        let s : State α := { s with writers := rest }
        if s.writerClosed then s else s.waitRead c count

/-- `stream_pipe_read`. -/
def read (c : CoroId) (count : Nat) : State α := if count = 0 then s else s.readLoop c count

/-- The rest of `stream_pipe_read`: a read that was neither served nor told that
the stream has ended starts over. -/
def readResumed (c : CoroId) (r : ReadId) (raised : Bool) : State α :=
  let s : State α :=
    if raised then { s with reader := Function.update s.reader r { s.reader r with coro := none } } else s
  match (s.reader r).value with
  | some value => { s with readOut := s.readOut ++ [(r, value)] }
  | none => if (s.reader r).ended || raised then s else s.readLoop c (s.reader r).max

/-- One turn of `reschedule`. -/
def resume (lane : Lane) : State α :=
  match s.sched.runLater lane with
  | [] => s
  | c :: _ =>
    let s' : State α := { s with sched := s.sched.reschedule lane }
    match (s.sched.coros c).state with
    | .suspend (.read r) => s'.readResumed c r (s'.sched.coros c).interrupted
    | .suspend (.write w) => s'.writeResumed w (s'.sched.coros c).interrupted
    | .suspend .start => { s' with sched := s'.sched.shield c false }
    | _ => s'

end State

/-! ## Runs -/

/-- What coroutines do. `shield` is either end of `protect_from_cancel`; `park` is
a suspension anywhere else. `unpark` is a wake from elsewhere, as by the signal of a
condition variable, which wakes the coroutine of its record whatever that waits for
now. The ends of a stream are also closed by code that no coroutine runs. -/
inductive Event (α : Type) where
  | spawn (lane : Lane)
  | resume (lane : Lane)
  | write (data : List α)
  | read (count : Nat)
  | close
  | drop
  | reject
  | cancel (c : CoroId)
  | shield (shielded : Bool)
  | park
  | unpark (c : CoroId)
  | finish (failed : Bool)

namespace State

variable {α : Type} (s : State α)

/-- The coroutine that runs does something to the scheduler. -/
def running (f : CoroId → Scheduler Waits) : State α :=
  match s.sched.currCoro with
  | some c => { s with sched := f c }
  | none => s

def exec : Event α → Except String (State α)
  | .spawn lane => .ok { s with sched := s.sched.spawnOwned lane .start }
  | .resume lane => .ok (s.resume lane)
  | .write data =>
    match s.sched.currCoro with
    | some c => .ok (s.write c data)
    | none => .error "called `unwrap` on a `None` value"
  | .read count =>
    match s.sched.currCoro with
    | some c => .ok (s.read c count)
    | none => .error "called `unwrap` on a `None` value"
  | .close => .ok s.closeWriter
  | .drop => .ok s.dropReader
  | .reject => .ok s.rejectReader
  | .cancel c => .ok { s with sched := s.sched.cancel c }
  | .shield shielded => .ok (s.running fun c => s.sched.shield c shielded)
  | .park => .ok (s.running fun c =>
    if (s.sched.coros c).interrupted then s.sched else s.sched.suspend c .other)
  | .unpark c => .ok { s with sched := s.sched.wake c }
  | .finish failed => .ok (s.running fun c => s.sched.finish c (if failed then .fail else .done))

/-- A round of the scheduler is not started by a coroutine that runs. -/
def allowed : Event α → Prop
  | .resume _ => s.sched.currCoro = none
  | .write _ | .read _ | .shield _ | .park | .finish _ => s.sched.currCoro.isSome = true
  | .unpark c => c < s.sched.coroId
  | .spawn _ | .close | .drop | .reject | .cancel _ => True

/-- `new_stream_pipe`. -/
def fresh (α : Type) (capacity : Nat) (cleanup : Bool) : State α where
  sched := .empty
  capacity := capacity
  chunks := []
  buffered := 0
  writerClosed := false
  readerDropped := false
  cleanup := cleanup
  head := none
  headPos := 0
  readers := []
  writers := []
  reader _ := ⟨0, none, false, none⟩
  writer _ := ⟨none, 0, none⟩
  reads := 0
  writes := 0
  data _ := []
  took _ := 0
  accepted := []
  reclaimed := []
  results := []
  handed := []
  readOut := []
  removed := []
  cleaned := []
  discarded := []

end State

/-- Every run of coroutines that use one pipe. -/
def system (α : Type) (capacity : Nat) (cleanup : Bool) : System (State α) (Event α) String where
  init s := s = State.fresh α capacity cleanup
  allowed := State.allowed
  exec := State.exec

/-- No coroutine starts to wait in the pipe while its entry is still in the run queue:
it was cancelled while it ran, and shields itself now. And none is woken from
elsewhere while it waits there. -/
def State.Undisturbed {α : Type} (s : State α) : Event α → Prop
  | .read _ | .write _ => ∀ c, s.sched.currCoro = some c →
      (s.sched.coros c).interrupted = false → (s.sched.coros c).ready = false
  | .unpark c => (∀ r, (s.sched.coros c).state ≠ .suspend (.read r)) ∧
      ∀ w, (s.sched.coros c).state ≠ .suspend (.write w)
  | _ => True

/-- The runs whose steps all meet `Undisturbed`. -/
def orderly (α : Type) (capacity : Nat) (cleanup : Bool) : System (State α) (Event α) String where
  init s := s = State.fresh α capacity cleanup
  allowed s e := s.allowed e ∧ s.Undisturbed e
  exec := State.exec

end StreamPipe

end Moonbit

end WitBindgen
