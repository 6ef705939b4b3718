import WitBindgen.Library.Runs
import Mathlib.Data.List.Basic
import Mathlib.Logic.Function.Basic

/-!
# Asynchronous operations of a component task

`AsyncSupport.cs`: asynchronous imports and reads and writes of streams and
futures that do not finish at once leave an entry in `pendingTasks`, under the
handle of their waitable, which `Callback` looks up when the host has an event.
The model has one component task, whose waitable set is made for its first entry,
and the host's side of the handles: which subtasks and which ends are busy.

User code runs in the export, until it returns, and inside `Callback`, when the
result of an operation resumes what awaited it.
-/

namespace WitBindgen.CSharp.Async

/-- What stops the generated code. -/
inductive Fault where
  | nullReference
  | keyNotFound
  /-- A task is resolved a second time. -/
  | invalidOperation
  | notImplemented
  /-- `Exception` with a message. -/
  | exception
  /-- The host stops the component. -/
  | trap
  deriving DecidableEq

/-! ## Codes -/

inductive EventCode where
  | none
  | subtask
  | streamRead
  | streamWrite
  | futureRead
  | futureWrite
  | cancel
  deriving DecidableEq

/-- The low bits of a status. -/
def state (status : Nat) : Nat := status % 16

/-- `(int)Code >> 4`. -/
def waitableCount (code : Nat) : Int :=
  (if code < 2 ^ 31 then (code : Int) else (code : Int) - 2 ^ 32) / 16

def blocked : Nat := 0xffffffff

structure EventWaitable where
  eventCode : EventCode
  waitable : Nat
  code : Nat
  deriving DecidableEq

namespace EventWaitable

def isSubtask (e : EventWaitable) : Bool := e.eventCode == .subtask

def isDropped (e : EventWaitable) : Bool := !e.isSubtask && state e.code == 1

def isCompleted (e : EventWaitable) : Bool :=
  e.isSubtask && state e.code == 2 || !e.isSubtask && state e.code == 0

end EventWaitable

/-! ## Operations -/

inductive Kind where
  /-- Finished by the call that started it. -/
  | immediate
  /-- An asynchronous import. -/
  | subtask
  /-- A read or write of a stream or future. -/
  | copy
  deriving DecidableEq

inductive Resolution where
  | result (count : Int)
  | streamDropped
  | canceled
  deriving DecidableEq

/-- An operation with its `TaskCompletionSource`. -/
structure Op where
  kind : Kind
  waitable : Nat
  canCancel : Bool
  /-- How the source was resolved, each time. -/
  resolutions : List Resolution
  /-- The host has said its last word about the operation. -/
  terminal : Bool
  deriving DecidableEq

inductive SubtaskState where
  | starting
  | started
  | returned
  deriving DecidableEq

/-- A handle in the host's table of the component. -/
inductive Waitable where
  | subtask (op : Nat) (st : SubtaskState)
  /-- The end of a stream or future, with the operation that is copying. -/
  | stream (op : Option Nat)
  deriving DecidableEq

inductive Phase where
  /-- In the export. -/
  | export
  /-- The export or `Callback` has returned `Wait`. -/
  | waiting
  /-- `Callback` has resolved an operation, and what awaited it runs; then comes
  `SubtaskDrop`, if the operation was a subtask, and the count. -/
  | callback (subtaskDrop : Option Nat)
  /-- The export has returned `Exit`. -/
  | returned
  /-- `Callback` has returned `Exit`. -/
  | exited
  deriving DecidableEq

structure State where
  ops : Nat → Option Op
  nextOp : Nat
  /-- The context is allocated, with a waitable set. -/
  context : Bool
  /-- The dictionary of the set in `pendingTasks`. -/
  waitables : Option (List (Nat × Nat))
  /-- `writerDropped` or `readerDropped` of the end with a handle. -/
  otherSideDropped : Nat → Bool
  table : Nat → Option Waitable
  phase : Phase
  /-- The operations whose subtask was dropped. -/
  dropped : List Nat
  thrown : Option Fault

namespace State

def initial : State where
  ops _ := none
  nextOp := 0
  context := false
  waitables := none
  otherSideDropped _ := false
  table _ := none
  phase := .export
  dropped := []
  thrown := none

def newOp (s : State) (o : Op) : State :=
  { s with ops := Function.update s.ops s.nextOp (some o), nextOp := s.nextOp + 1 }

def setOp (s : State) (op : Nat) (o : Op) : State :=
  { s with ops := Function.update s.ops op (some o) }

def setTable (s : State) (h : Nat) (w : Option Waitable) : State :=
  { s with table := Function.update s.table h w }

/-- `AddTaskToWaitables`. -/
def addTaskToWaitables (s : State) (h op : Nat) : State :=
  { s with waitables := some ((s.waitables.getD []).filter (fun p => p.1 ≠ h) ++ [(h, op)]) }

/-- `Join`, in a new context if there is none. -/
def join (s : State) (h op : Nat) : State := { s with context := true }.addTaskToWaitables h op

/-- `waitables.Remove`. -/
def remove (s : State) (h : Nat) : State :=
  { s with waitables := s.waitables.map fun w => w.filter (fun p => p.1 ≠ h) }

/-! ## Starting operations -/

/-- `TaskFromStatus`, with the status of the call to an import. -/
def taskFromStatus (s : State) (status : Nat) : Except Fault State :=
  let handle := status / 16
  if state status = 0 then
    .ok (((s.newOp ⟨.subtask, handle, true, [], false⟩).setTable handle
      (some (.subtask s.nextOp .starting))).join handle s.nextOp)
  else if state status = 1 then
    .ok (((s.newOp ⟨.subtask, handle, true, [], false⟩).setTable handle
      (some (.subtask s.nextOp .started))).join handle s.nextOp)
  else if state status = 2 then
    .ok (s.newOp ⟨.immediate, 0, true, [.result 0], true⟩)
  else
    .error .exception

/-- `ReadInternal` and `WriteInternal`, with the status of the call to the host.
The exceptions are for the caller, who has no task then. -/
def copyInternal (s : State) (h status : Nat) : State :=
  if s.otherSideDropped h then
    s
  else if status = blocked then
    ((s.newOp ⟨.copy, h, true, [], false⟩).setTable h (some (.stream (some s.nextOp)))).join h
      s.nextOp
  else if state status = 0 then
    s.newOp ⟨.immediate, h, true, [.result ((status / 16 : Nat) : Int)], true⟩
  else
    s

/-! ## Resolving them -/

/-- `WaitableInfoState.SetResult`. -/
def setResult (s : State) (op : Nat) (count : Int) : Except Fault State :=
  match s.ops op with
  | some o =>
    if o.resolutions = [] then
      .ok (s.setOp op { o with canCancel := false, resolutions := [.result count] })
    else
      .error .invalidOperation
  | none => .error .nullReference

/-- `WaitableInfoState.SetException`: the operation is a read or write. -/
def setException (s : State) (op : Nat) : Except Fault State :=
  match s.ops op with
  | some o =>
    if o.kind ≠ .copy then
      .error .nullReference
    else if o.resolutions = [] then
      .ok (s.setOp op { o with resolutions := [.streamDropped] })
    else
      .error .invalidOperation
  | none => .error .nullReference

/-- The host stops a copy in the call that cancels it, and has no event for it. -/
def cancelCopy (s : State) (h : Nat) : Except Fault State :=
  match s.table h with
  | some (.stream (some op)) =>
    match s.ops op with
    | some o => .ok ((s.setTable h (some (.stream none))).setOp op { o with terminal := true })
    | none => .error .trap
  | _ => .error .trap

/-- `ComponentTask.SetCanceled`. -/
def setCanceled (s : State) (op : Nat) : Except Fault State :=
  match s.ops op with
  | some o =>
    if o.resolutions = [] then
      .ok (s.setOp op { o with resolutions := [.canceled] })
    else
      .error .invalidOperation
  | none => .error .nullReference

/-- `ComponentTask.Cancel`. A task that has its result from the start has nothing
to cancel with, and its caller gets the exception. -/
def cancel (s : State) (op : Nat) : Except Fault State :=
  match s.ops op with
  | some o =>
    if o.canCancel = false then
      .ok s
    else if o.kind = .immediate then
      .ok s
    else do
      let s ← s.cancelCopy o.waitable
      s.setCanceled op
  | none => .error .nullReference

/-! ## Events -/

/-- The host takes note of the event that it gives to the component. -/
def deliver (s : State) (e : EventWaitable) : State :=
  match s.table e.waitable with
  | some (.subtask op _) =>
    if state e.code = 2 then
      match s.ops op with
      | some o =>
        (s.setTable e.waitable (some (.subtask op .returned))).setOp op
          { o with terminal := true }
      | none => s
    else
      s.setTable e.waitable (some (.subtask op .started))
  | some (.stream (some op)) =>
    match s.ops op with
    | some o =>
      (s.setTable e.waitable (some (.stream none))).setOp op { o with terminal := true }
    | none => s
  | _ => s

/-- `FutureStream!.OtherSideDropped()`. -/
def noteDropped (s : State) (op : Nat) : Except Fault State :=
  match s.ops op with
  | some o =>
    if o.kind = .copy then
      .ok { s with otherSideDropped := Function.update s.otherSideDropped o.waitable true }
    else
      .error .nullReference
  | none => .error .nullReference

/-- The part of `Callback` that resolves the operation. -/
def resolve (s : State) (e : EventWaitable) (op : Nat) : Except Fault State :=
  if e.isSubtask then
    if state e.code = 0 then
      .error .exception
    else if state e.code = 1 then
      .ok { s with phase := .callback none }
    else if state e.code = 2 then do
      let s ← s.setResult op (waitableCount e.code)
      .ok { s with phase := .callback (some e.waitable) }
    else
      .error .exception
  else if e.isDropped then do
    let s ← s.setException op
    .ok { s with phase := .callback none }
  else do
    let s ← s.setResult op (waitableCount e.code)
    .ok { s with phase := .callback none }

/-- `Callback`, as far as user code runs. -/
def callback (s : State) (e : EventWaitable) : Except Fault State :=
  if s.context = false then
    .error .nullReference
  else
    match s.waitables with
    | none => .error .keyNotFound
    | some waitables =>
      match waitables.find? (fun p => p.1 == e.waitable) with
      | none => .error .keyNotFound
      | some (_, op) => do
          let s ← if e.isDropped then s.noteDropped op else .ok s
          if e.isCompleted || e.isDropped then
            (s.remove e.waitable).resolve e op
          else
            .error .notImplemented

def subtaskDrop (s : State) (h : Nat) : Except Fault State :=
  match s.table h with
  | some (.subtask op .returned) =>
    .ok { s.setTable h none with dropped := s.dropped ++ [op] }
  | _ => .error .trap

/-- The end of `Callback`. -/
def count (s : State) : State :=
  if s.waitables.getD [] = [] then
    { s with context := false, phase := .exited }
  else
    { s with phase := .waiting }

/-- `Callback`, from where user code has run. -/
def finish (s : State) : Except Fault State :=
  match s.phase with
  | .callback none => .ok s.count
  | .callback (some h) => do
      let s ← s.subtaskDrop h
      .ok s.count
  | _ => .error .exception

end State

/-! ## Runs -/

inductive Event where
  /-- An asynchronous import is called and has a status. -/
  | importCall (status : Nat)
  /-- An end is read or written and has a status. -/
  | copy (h status : Nat)
  | cancel (op : Nat)
  /-- The component gets an end. -/
  | acquire (h : Nat)
  /-- It gives an idle end away, or drops it. -/
  | release (h : Nat)
  /-- The export returns, with its task completed or not. -/
  | returns (completed : Bool)
  | event (e : EventWaitable)
  | finish
  deriving DecidableEq

namespace State

def exec (s : State) : Event → Except Fault State
  | .importCall status => s.taskFromStatus status
  | .copy h status => .ok (s.copyInternal h status)
  | .cancel op => s.cancel op
  | .acquire h =>
    .ok { s.setTable h (some (.stream none)) with
      otherSideDropped := Function.update s.otherSideDropped h false }
  | .release h => .ok (s.setTable h none)
  | .returns completed => .ok { s with phase := if completed then .returned else .waiting }
  | .event e => (s.deliver e).callback e
  | .finish => s.finish

/-- User code runs. -/
def Running (s : State) : Prop := s.phase = .export ∨ ∃ d, s.phase = .callback d

/-- The events that the host may have for a waitable. -/
def Due (s : State) (e : EventWaitable) : Prop :=
  match s.table e.waitable with
  | some (.subtask _ st) =>
    e.eventCode = .subtask ∧
      (state e.code = 1 ∧ st = .starting ∨ state e.code = 2 ∧ st ≠ .returned)
  | some (.stream (some _)) =>
    (e.eventCode = .streamRead ∨ e.eventCode = .streamWrite ∨ e.eventCode = .futureRead ∨
      e.eventCode = .futureWrite) ∧ state e.code ≤ 2
  | _ => False

/-- The status of an import: returned, or a new subtask that is starting or
started. -/
def CallStatus (s : State) (status : Nat) : Prop :=
  status = 2 ∨ (state status = 0 ∨ state status = 1) ∧ s.table (status / 16) = none

def Allowed (s : State) (i : Event) : Prop :=
  s.thrown = none ∧
  match i with
  | .importCall status => s.Running ∧ s.CallStatus status
  | .copy h status => s.Running ∧ s.table h = some (.stream none) ∧
      (status = blocked ∨ state status ≤ 1)
  | .cancel op => s.Running ∧ ∃ o, s.ops op = some o ∧ o.kind ≠ .subtask
  | .acquire h => s.Running ∧ s.table h = none
  | .release h => s.Running ∧ s.table h = some (.stream none)
  | .returns completed => s.phase = .export ∧ (completed = true ∨ s.context = true)
  | .event e => s.phase = .waiting ∧ s.Due e
  | .finish => ∃ d, s.phase = .callback d

/-- Operations are cancelled only when they have their result, and events tell
the end of an operation. -/
def Sound (s : State) : Event → Prop
  | .cancel op => ∀ o, s.ops op = some o → o.canCancel = false ∨ o.kind = .immediate
  | .event e => if e.isSubtask then state e.code ≠ 1 else state e.code ≠ 2
  | _ => True

/-- An exception that leaves the generated code is noted, and ends the run. -/
def execute (s : State) (i : Event) : State :=
  match s.exec i with
  | .ok s' => s'
  | .error f => { s with thrown := some f }

end State

/-- A component task, under every order of events. -/
def componentTask : System State Event Fault where
  init s := s = .initial
  allowed := State.Allowed
  exec s i := .ok (s.execute i)

/-- A component task that cancels nothing and whose imports are not reported as
started. -/
def soundTask : System State Event Fault where
  init s := s = .initial
  allowed s i := s.Allowed i ∧ s.Sound i
  exec s i := .ok (s.execute i)

/-! ## What the bookkeeping is for -/

namespace State

/-- The host is at work on an operation of the waitable. -/
def InFlight (s : State) (h op : Nat) : Prop :=
  (∃ st, s.table h = some (.subtask op st) ∧ st ≠ .returned) ∨ s.table h = some (.stream (some op))

structure Kept (s : State) : Prop where
  /-- Nothing is thrown. -/
  calm : s.thrown = none
  /-- Waitables have an entry while the host is at work on their operation. -/
  entry : ∀ h op, (h, op) ∈ s.waitables.getD [] ↔ s.InFlight h op
  terminal : ∀ op o, s.ops op = some o → (o.terminal = false ↔ ∃ h, s.InFlight h op)
  /-- Operations are resolved once, when the host has said its last word. -/
  resolved : ∀ op o, s.ops op = some o → o.resolutions.length = if o.terminal then 1 else 0
  /-- Subtasks are there, or were dropped once after they had returned. -/
  subtasks : ∀ op o, s.ops op = some o → o.kind = .subtask →
    (∃ h st, s.table h = some (.subtask op st) ∧ (st = .returned → s.phase = .callback (some h))) ∧
      s.dropped.count op = 0 ∨
    (¬ ∃ h st, s.table h = some (.subtask op st)) ∧ o.terminal = true ∧ s.dropped.count op = 1
  exits : s.phase = .exited → ∀ h op, ¬ s.InFlight h op

end State

end WitBindgen.CSharp.Async
