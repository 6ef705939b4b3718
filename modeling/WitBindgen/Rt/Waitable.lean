import Mathlib.Logic.Function.Basic
import Mathlib.Tactic.Common
import Mathlib.Tactic.Simps.Basic

/-!
# Operations on a waitable

`rt/async_support/waitable.rs`: one asynchronous operation on a component-model
waitable, driven by a `WaitableOp`. While it is in flight a pointer to its
completion status stands in the map of the task that waits for it; the event of
the waitable takes the pointer out and fills the status in. The operation can be
polled in any task, cancelled, and dropped.

A call returns its new state or panics. The answer the host gives to an intrinsic
a call may use is an argument of the call.
-/

namespace WitBindgen

namespace Rt

/-- Status codes, waitable handles and pointers are 32-bit numbers. -/
abbrev Code := Nat
abbrev Waitable := Nat
abbrev Ptr := Nat
/-- A `std::task::Waker`, by its identity. -/
abbrev Waker := Nat

/-- A panic of the `WaitableOp` that is driven, or of the driver itself. -/
inductive Panic where
  | op (text : String)
  | own (text : String)
deriving DecidableEq

/-- The calls of a `WaitableOp` work on `&mut self`. -/
abbrev OpM (σ : Type) := StateT σ (Except String)

structure WaitableOp where
  σ : Type
  Start : Type
  InProgress : Type
  Result : Type
  Cancel : Type
  /-- The code is what the host answers, should it be asked. -/
  start : Start → Code → OpM σ (Code × InProgress)
  inProgressUpdate : InProgress → Code → OpM σ (Except InProgress Result)
  startCancelled : Start → OpM σ Cancel
  inProgressWaitable : InProgress → OpM σ Waitable
  inProgressCancel : InProgress → Code → OpM σ (Code × InProgress)
  resultIntoCancel : Result → OpM σ Cancel

/-! ## Tasks -/

def wasip3TaskV1 : Nat := 1
def wasip3TaskV2 : Nat := 2

/-- The task that is running, behind the pointer `wasip3_task_set` gives. -/
structure Wasip3Task where
  version : Nat
  ptr : Ptr
deriving DecidableEq

/-- A clone of a task the operation was registered with. -/
structure CabiTask where
  ptr : Ptr
  registered : Option Waitable
deriving DecidableEq

/-- The `waitables` map of every task, with the callback pointer of each entry
(the callback is always `cabi_wake`), and the task whose waitable set a waitable
is joined to. -/
structure Tasks where
  waitables : Ptr → Waitable → Option Ptr
  joined : Waitable → Option Ptr

namespace Tasks

/-- No task waits for anything. -/
protected def none : Tasks := ⟨fun _ _ => Option.none, fun _ => Option.none⟩

variable (ts : Tasks)

def setEntry (t : Ptr) (h : Waitable) (p : Option Ptr) : Ptr → Waitable → Option Ptr :=
  fun t' h' => if t' = t ∧ h' = h then p else ts.waitables t' h'

def waitableRegister (t : Ptr) (h : Waitable) (p : Ptr) : Option Ptr × Tasks :=
  (ts.waitables t h,
    { waitables := ts.setEntry t h (some p), joined := Function.update ts.joined h (some t) })

def waitableUnregister (t : Ptr) (h : Waitable) : Option Ptr × Tasks :=
  (ts.waitables t h,
    { waitables := ts.setEntry t h .none, joined := Function.update ts.joined h .none })

/-- `Drop for CabiTask`. -/
def dropCabiTask (task : CabiTask) : Tasks :=
  match task.registered with
  | some h => (ts.waitableUnregister task.ptr h).2
  | none => ts

end Tasks

/-! ## The operation -/

structure CompletionStatus where
  code : Option Code
  waker : Option Waker
deriving DecidableEq

inductive WaitableOperationState (S : WaitableOp) where
  | start (s : S.Start)
  | inProgress (s : S.InProgress)
  | done

structure WaitableOperation (S : WaitableOp) where
  op : S.σ
  state : WaitableOperationState S
  task : Option CabiTask
  completionStatus : CompletionStatus

def WaitableOperation.new {S : WaitableOp} (op : S.σ) (s : S.Start) : WaitableOperation S where
  op
  state := .start s
  task := none
  completionStatus := ⟨none, none⟩

def WaitableOperation.isDone {S : WaitableOp} (o : WaitableOperation S) : Bool :=
  match o.state with
  | .done => true
  | _ => false

/-- What was asked of the `WaitableOp`: `update` also says whether the operation
completed. -/
inductive OpCall where
  | start
  | update (code : Code) (completed : Bool)
  | cancel
deriving DecidableEq

/-- The operation, pinned with its completion status at `addr`, among the tasks
of the component. `calls` is the history of the operation. -/
structure World (S : WaitableOp) where
  self : WaitableOperation S
  addr : Ptr
  tasks : Tasks
  calls : List OpCall
  dropped : Bool

inductive Poll (α : Type) where
  | ready (a : α)
  | pending

/-- A waker, and the task that polls. -/
structure Context where
  waker : Waker
  task : Option Wasip3Task

namespace World

variable {S : WaitableOp} (w : World S)

abbrev StepM (α : Type) := Except Panic α

@[simps] def setState (s : WaitableOperationState S) : World S := { w with self.state := s }
@[simps] def setOp (s : S.σ) : World S := { w with self.op := s }
@[simps] def setTask (t : Option CabiTask) : World S := { w with self.task := t }
@[simps] def setCode (c : Option Code) : World S := { w with self.completionStatus.code := c }
@[simps] def setWaker (k : Option Waker) : World S := { w with self.completionStatus.waker := k }
@[simps] def setTasks (ts : Tasks) : World S := { w with tasks := ts }
@[simps] def record (c : OpCall) : World S := { w with calls := w.calls ++ [c] }

/-- A call of the `WaitableOp`. -/
def call {α : Type} (m : OpM S.σ α) : StepM (α × World S) :=
  match m w.self.op with
  | .ok (a, s) => .ok (a, w.setOp s)
  | .error text => .error (.op text)

/-- The clone of the task to register with: the one stored if it is the same
task, otherwise a new one, and the old one is dropped. -/
def rememberTask (waitable : Waitable) (task : Wasip3Task) : World S :=
  match w.self.task with
  | some prev =>
    if prev.ptr = task.ptr then w.setTask (some { prev with registered := some waitable })
    else (w.setTasks (w.tasks.dropCabiTask prev)).setTask (some ⟨task.ptr, some waitable⟩)
  | none => w.setTask (some ⟨task.ptr, some waitable⟩)

def registerWaker (waitable : Waitable) (cx : Context) : StepM (World S) :=
  if w.self.completionStatus.code.isSome then
    .error (.own "assertion failed: completion_status.as_mut().code_mut().is_none()")
  else
    let w := w.setWaker (some cx.waker)
    match cx.task with
    | none => .error (.own "assertion failed: !task.is_null()")
    | some task =>
      if task.version < wasip3TaskV1 then
        .error (.own "assertion failed: (*task).version >= cabi::WASIP3_TASK_V1")
      else
        -- we must be out of the previous task's map before the new one is entered
        let w := if wasip3TaskV2 ≤ task.version then w.rememberTask waitable task else w
        let (prev, ts) := w.tasks.waitableRegister task.ptr waitable w.addr
        if prev.all (· = w.addr) then .ok (w.setTasks ts)
        else .error (.own "assertion `left == right` failed")

/-- Without a stored task the operation is assumed to wait in a v1 task, and that
to be the one running. -/
def unregisterWaker (waitable : Waitable) (current : Option Wasip3Task) : StepM (World S) :=
  let finish (r : Option Ptr × Tasks) (w : World S) : StepM (World S) :=
    if r.1.all (· = w.addr) then .ok (w.setTasks r.2)
    else .error (.own "assertion `left == right` failed")
  match w.self.task with
  | some prev =>
    finish (w.tasks.waitableUnregister prev.ptr waitable)
      (w.setTask (some { prev with registered := none }))
  | none =>
    match current with
    | none => .error (.own "assertion failed: !task.is_null()")
    | some task =>
      if task.version < wasip3TaskV1 then
        .error (.own "assertion failed: (*task).version >= cabi::WASIP3_TASK_V1")
      else finish (w.tasks.waitableUnregister task.ptr waitable) w

/-- The end of `poll_complete_with_code`: still in progress. -/
def pollPending (cx : Option Context) : StepM (Poll S.Result × World S) :=
  match w.self.state with
  | .inProgress ip =>
    match cx with
    | some cx => do
        let (handle, w) ← w.call (S.inProgressWaitable ip)
        let w ← w.registerWaker handle cx
        pure (.pending, w)
    | none => pure (.pending, w)
  | _ => .error (.own "internal error: entered unreachable code")

def clearRegistered : World S :=
  w.setTask (w.self.task.map fun t => { t with registered := none })

/-- The operation looks at a code. -/
def updateWith (code : Code) : StepM (Except S.InProgress S.Result × World S) :=
  match w.self.state with
  | .inProgress ip => do
      let (r, w) ← (w.setState .done).call (S.inProgressUpdate ip code)
      pure (r, w.record (.update code r.isOk))
  | _ => .error (.own "internal error: entered unreachable code")

def pollCompleteWithCode (cx : Option Context) (optionalCode : Option Code) :
    StepM (Poll S.Result × World S) :=
  match optionalCode with
  | some code => do
      let (r, w) ← w.clearRegistered.updateWith code
      match r with
      | .ok result => pure (.ready result, w)
      | .error ip => (w.setState (.inProgress ip)).pollPending cx
  | none => w.pollPending cx

/-- `answer` is the host's answer to the intrinsic that starts the operation. -/
def pollComplete (cx : Context) (answer : Code) : StepM (Poll S.Result × World S) :=
  match w.self.state with
  | .start s => do
      let ((code, ip), w) ← (w.setState .done).call (S.start s answer)
      ((w.record .start).setState (.inProgress ip)).pollCompleteWithCode (some cx) (some code)
  | .inProgress _ =>
    (w.setCode none).pollCompleteWithCode (some cx) w.self.completionStatus.code
  | .done => .error (.own "cannot re-poll after operation completes")

/-- The end of `cancel`: the host is asked, and its answer is final. -/
def cancelInProgress (answer : Code) : StepM (S.Cancel × World S) :=
  match w.self.state with
  | .inProgress ip => do
      let ((code, ip), w) ← w.call (S.inProgressCancel ip answer)
      let (r, w) ← ((w.record .cancel).setState (.inProgress ip)).pollCompleteWithCode none
        (some code)
      match r with
      | .ready result => w.call (S.resultIntoCancel result)
      | .pending => .error (.own "internal error: entered unreachable code")
  | _ => .error (.own "internal error: entered unreachable code")

/-- `answer` is the host's answer to the intrinsic that cancels the operation. -/
def cancel (current : Option Wasip3Task) (answer : Code) : StepM (S.Cancel × World S) :=
  match w.self.state with
  | .start s => (w.setState .done).call (S.startCancelled s)
  | .inProgress ip =>
    match w.self.completionStatus.code with
    -- the task already delivered a code, which took our pointer out of its map
    | some code => do
        let (r, w) ← (w.setCode none).pollCompleteWithCode none (some code)
        match r with
        | .ready result => w.call (S.resultIntoCancel result)
        | .pending => w.cancelInProgress answer
    | none => do
        let (waitable, w) ← w.call (S.inProgressWaitable ip)
        let w ← w.unregisterWaker waitable current
        w.cancelInProgress answer
  | .done => .error (.own "cannot cancel operation after completing it")

/-- The fields are dropped after the operation is cancelled; of these the task
is the one that acts. -/
def dropFields : World S :=
  { w.setTask none with
    tasks := match w.self.task with
      | some t => w.tasks.dropCabiTask t
      | none => w.tasks
    dropped := true }

def drop (current : Option Wasip3Task) (answer : Code) : StepM (World S) :=
  if w.self.isDone then pure w.dropFields
  else do
    let (_, w) ← w.cancel current answer
    pure w.dropFields

/-! ## Events -/

def cabiWake (code : Code) : StepM (World S) :=
  match w.self.completionStatus.waker with
  | some _ => .ok ((w.setCode (some code)).setWaker none)
  | none => .error (.own "called `Option::unwrap()` on a `None` value")

/-- `TaskState::deliver_waitable_event` of task `t`. The entry of another
operation wakes that one. -/
def deliverWaitableEvent (t : Ptr) (waitable : Waitable) (code : Code) : StepM (World S) :=
  let (c, ts) := w.tasks.waitableUnregister t waitable
  match c with
  | some p => if p = w.addr then (w.setTasks ts).cabiWake code else .ok (w.setTasks ts)
  | none => .error (.own "called `Option::unwrap()` on a `None` value")

end World

end Rt

end WitBindgen
