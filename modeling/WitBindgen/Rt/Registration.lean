import WitBindgen.Rt.Waitable
import WitBindgen.Library.Runs
import WitBindgen.Library.Outcome

/-!
# Where an operation is registered

The pointer to a completion status may stand in the map of one task only, and in
none once the operation is over. The proof follows the driver through each event:
before a code is looked at the pointer is in no map, and a wait puts it into the
map of the task that polls, after it has left the one before.
-/

namespace WitBindgen

namespace Rt

/-! ## Maps -/

namespace Tasks

/-- No map has an entry that points to `p`. -/
def Nowhere (ts : Tasks) (p : Ptr) : Prop := ∀ t h, ts.waitables t h ≠ some p

/-- `p` is under the waitable `h` in the map of `t` and nowhere else. -/
def OnlyAt (ts : Tasks) (p : Ptr) (t : Ptr) (h : Waitable) : Prop :=
  ∀ t' h', ts.waitables t' h' = some p ↔ t' = t ∧ h' = h

/-- Nothing but `p` is under `h`. -/
def Reserved (ts : Tasks) (p : Ptr) (h : Waitable) : Prop :=
  ∀ t q, ts.waitables t h = some q → q = p

variable {ts : Tasks} {p t t' : Ptr} {h h' : Waitable}

theorem unregister_waitables (t' : Ptr) (h' : Waitable) :
    (ts.waitableUnregister t h).2.waitables t' h' =
      if t' = t ∧ h' = h then none else ts.waitables t' h' := rfl

theorem register_waitables (t' : Ptr) (h' : Waitable) :
    (ts.waitableRegister t h p).2.waitables t' h' =
      if t' = t ∧ h' = h then some p else ts.waitables t' h' := rfl

theorem Nowhere.unregister (hn : ts.Nowhere p) : (ts.waitableUnregister t h).2.Nowhere p := by
  intro t' h'
  rw [unregister_waitables]
  split
  · exact nofun
  · exact hn t' h'

theorem OnlyAt.unregister (ho : ts.OnlyAt p t h) : (ts.waitableUnregister t h).2.Nowhere p := by
  intro t' h'
  rw [unregister_waitables]
  split
  · exact nofun
  · exact fun heq => ‹¬_› ((ho t' h').mp heq)

theorem Reserved.unregister (hr : ts.Reserved p h') :
    (ts.waitableUnregister t h).2.Reserved p h' := by
  intro t' q hq
  rw [unregister_waitables] at hq
  split at hq
  · cases hq
  · exact hr t' q hq

theorem OnlyAt.unique (ho : ts.OnlyAt p t h) (hp : ts.waitables t' h' = some p) :
    t' = t ∧ h' = h := (ho t' h').mp hp

theorem OnlyAt.entry (ho : ts.OnlyAt p t h) : ts.waitables t h = some p := (ho t h).mpr ⟨rfl, rfl⟩

theorem Nowhere.register (hn : ts.Nowhere p) : (ts.waitableRegister t h p).2.OnlyAt p t h := by
  intro t' h'
  rw [register_waitables]
  split
  · simp_all
  · exact iff_of_false (hn t' h') ‹_›

theorem OnlyAt.register (ho : ts.OnlyAt p t h) : (ts.waitableRegister t h p).2.OnlyAt p t h := by
  intro t' h'
  rw [register_waitables]
  split
  · simp_all
  · exact ho t' h'

theorem Reserved.register (hr : ts.Reserved p h) : (ts.waitableRegister t h p).2.Reserved p h := by
  intro t' q hq
  rw [register_waitables] at hq
  split at hq
  · exact (Option.some.inj hq).symm
  · exact hr t' q hq

theorem Reserved.all_eq (hr : ts.Reserved p h) : (ts.waitables t h).all (· = p) = true := by
  cases hq : ts.waitables t h with
  | none => rfl
  | some q => simpa using hr t q hq

end Tasks

/-! ## What is known of a `WaitableOp` -/

/-- The waitable an in-flight operation waits for. -/
def WaitableOp.waitable (S : WaitableOp) (s : S.σ) (ip : S.InProgress) : Option Waitable :=
  match S.inProgressWaitable ip s with
  | .ok (h, _) => some h
  | .error _ => none

/-- What the trait `WaitableOp` asks of its implementations: the waitable of an
operation stays the same, the cancellation intrinsic's code is handed on, and an
operation is only kept in progress by the codes in `pending`. -/
structure WaitableOp.Contract (S : WaitableOp) where
  pending : Code → Bool
  waitable_state : ∀ ip s h s', S.inProgressWaitable ip s = .ok (h, s') → s' = s
  update_waitable : ∀ ip c s ip' s', S.inProgressUpdate ip c s = .ok (.error ip', s') →
    S.waitable s' ip' = S.waitable s ip
  update_pending : ∀ ip c s ip' s', S.inProgressUpdate ip c s = .ok (.error ip', s') →
    pending c = true
  cancel_code : ∀ ip a s c ip' s', S.inProgressCancel ip a s = .ok ((c, ip'), s') → c = a
  cancel_waitable : ∀ ip a s c ip' s', S.inProgressCancel ip a s = .ok ((c, ip'), s') →
    S.waitable s' ip' = S.waitable s ip

/-- A panic of the operation that is driven. -/
def Panic.IsOp (p : Panic) : Prop := ∃ text, p = .op text

/-! ## Events -/

/-- What can happen to an operation. `other` is any step of other operations and
tasks that changes the maps. -/
inductive Event where
  | poll (waker : Waker) (task : Wasip3Task) (answer : Code)
  | deliver (t : Ptr) (waitable : Waitable) (code : Code)
  | cancel (current : Option Wasip3Task) (answer : Code)
  | drop (current : Option Wasip3Task) (answer : Code)
  | other (ts : Tasks)

namespace World

variable {S : WaitableOp}

def exec (w : World S) : Event → Except Panic (World S)
  | .poll waker task answer => Prod.snd <$> w.pollComplete ⟨waker, some task⟩ answer
  | .deliver t h code => w.deliverWaitableEvent t h code
  | .cancel current answer => Prod.snd <$> w.cancel current answer
  | .drop current answer => w.drop current answer
  | .other ts => .ok (w.setTasks ts)

/-- The waitable is fresh when the host first names it. -/
def StartsFresh (w : World S) (answer : Code) : Prop :=
  ∀ s, w.self.state = .start s → ∀ c ip s', S.start s answer w.self.op = .ok ((c, ip), s') →
    ∀ h, S.waitable s' ip = some h → ∀ t, w.tasks.waitables t h = none

/-- Other operations use neither our pointer nor our waitable. -/
def Untouched (w : World S) (ts : Tasks) : Prop :=
  (∀ t h, ts.waitables t h = some w.addr ↔ w.tasks.waitables t h = some w.addr) ∧
    ∀ ip h, w.self.state = .inProgress ip → S.waitable w.self.op ip = some h →
      (∀ t, ts.waitables t h = w.tasks.waitables t h) ∧ ts.joined h = w.tasks.joined h

/-- What the users of an operation and the host may do: an operation that
completed is not polled or cancelled again, an event goes to the task whose set
its waitable is in, and a cancelled operation is not left pending. -/
def allowed (C : S.Contract) (w : World S) : Event → Prop
  | .poll _ task answer => w.dropped = false ∧ w.self.isDone = false ∧
      wasip3TaskV1 ≤ task.version ∧ w.StartsFresh answer
  | .deliver t h _ => w.tasks.joined h = some t ∧ (w.tasks.waitables t h).isSome
  | .cancel current answer => w.dropped = false ∧ w.self.isDone = false ∧
      (∀ task ∈ current, wasip3TaskV1 ≤ task.version) ∧ C.pending answer = false
  | .drop current answer => w.dropped = false ∧
      (∀ task ∈ current, wasip3TaskV1 ≤ task.version) ∧ C.pending answer = false
  | .other ts => w.Untouched ts

/-- Every way to run an operation. -/
def system (C : S.Contract) : System (World S) Event Panic where
  init w := ∃ op s, w.self = .new op s ∧ w.tasks.Nowhere w.addr ∧ w.calls = [] ∧ w.dropped = false
  allowed := allowed C
  exec := exec

/-! ## One call at a time -/

variable {w w' : World S} {h : Waitable} {t : Ptr}

/-- The operation waits in task `t`; a stored task is that one. -/
def WaitingIn (w : World S) (t : Ptr) (h : Waitable) : Prop :=
  w.tasks.OnlyAt w.addr t h ∧ (w.self.task = none ∨ w.self.task = some ⟨t, some h⟩)

/-- A stored task does not believe that we are registered with it. -/
def Cleared (w : World S) : Prop := ∀ c ∈ w.self.task, c.registered = none

/-- Only the registration and the waker differ. -/
structure Frame (w w' : World S) : Prop where
  op : w'.self.op = w.self.op
  state : w'.self.state = w.self.state
  code : w'.self.completionStatus.code = w.self.completionStatus.code
  addr : w'.addr = w.addr
  calls : w'.calls = w.calls
  dropped : w'.dropped = w.dropped

theorem Cleared.none (h : w.self.task = none) : w.Cleared := by
  rw [Cleared, h]; exact nofun

/-- After the clone of the running task is stored we are in no other task's map. -/
theorem rememberTask_spec (task : Wasip3Task)
    (hwhere : (w.tasks.Nowhere w.addr ∧ w.Cleared) ∨ ∃ t, w.WaitingIn t h ∧
      (w.self.task = none → t = task.ptr)) (hres : w.tasks.Reserved w.addr h) :
    Frame w (w.rememberTask h task) ∧
      ((w.rememberTask h task).tasks.Nowhere w.addr ∨
        (w.rememberTask h task).tasks.OnlyAt w.addr task.ptr h) ∧
      (w.rememberTask h task).self.task = some ⟨task.ptr, some h⟩ ∧
      (w.rememberTask h task).tasks.Reserved w.addr h := by
  cases hprev : w.self.task with
  | none =>
    have hnew : w.rememberTask h task = w.setTask (some ⟨task.ptr, some h⟩) := by
      rw [rememberTask, hprev]
    rw [hnew]
    refine ⟨⟨rfl, rfl, rfl, rfl, rfl, rfl⟩, ?_, rfl, hres⟩
    rcases hwhere with ⟨hn, -⟩ | ⟨t, hw, ht⟩
    · exact Or.inl hn
    · exact Or.inr (ht hprev ▸ hw.1)
  | some prev =>
    have hat : (w.tasks.Nowhere w.addr ∧ prev.registered = none) ∨
        (w.tasks.OnlyAt w.addr prev.ptr h ∧ prev.registered = some h) := by
      rcases hwhere with ⟨hn, hc⟩ | ⟨t, ⟨ho, htask⟩, -⟩
      · exact Or.inl ⟨hn, hc prev hprev⟩
      · rw [hprev] at htask
        rcases htask with htask | htask
        · cases htask
        · cases htask; exact Or.inr ⟨ho, rfl⟩
    by_cases hsame : prev.ptr = task.ptr
    · have hkeep : w.rememberTask h task = w.setTask (some ⟨task.ptr, some h⟩) := by
        rw [rememberTask, hprev, ← hsame]
        exact if_pos rfl
      rw [hkeep]
      refine ⟨⟨rfl, rfl, rfl, rfl, rfl, rfl⟩, ?_, rfl, hres⟩
      exact hat.imp And.left fun ho => hsame ▸ ho.1
    · have hmove : w.rememberTask h task =
          (w.setTasks (w.tasks.dropCabiTask prev)).setTask (some ⟨task.ptr, some h⟩) := by
        rw [rememberTask, hprev]
        exact if_neg hsame
      rw [hmove]
      rcases hat with ⟨hn, hr⟩ | ⟨ho, hr⟩
      · have hdrop : w.tasks.dropCabiTask prev = w.tasks := by rw [Tasks.dropCabiTask, hr]
        rw [hdrop]
        exact ⟨⟨rfl, rfl, rfl, rfl, rfl, rfl⟩, Or.inl hn, rfl, hres⟩
      · have hdrop : w.tasks.dropCabiTask prev = (w.tasks.waitableUnregister prev.ptr h).2 := by
          rw [Tasks.dropCabiTask, hr]
        rw [hdrop]
        exact ⟨⟨rfl, rfl, rfl, rfl, rfl, rfl⟩, Or.inl ho.unregister, rfl, hres.unregister⟩

theorem rememberTask_waker (task : Wasip3Task) :
    (w.rememberTask h task).self.completionStatus.waker = w.self.completionStatus.waker := by
  rw [rememberTask]
  split
  · split <;> rfl
  · rfl

theorem registerWaker_spec (cx : Waker) (task : Wasip3Task)
    (hcode : w.self.completionStatus.code = none) (hversion : wasip3TaskV1 ≤ task.version)
    (hv2 : w.self.task ≠ none → wasip3TaskV2 ≤ task.version)
    (hwhere : (w.tasks.Nowhere w.addr ∧ w.Cleared) ∨ ∃ t, w.WaitingIn t h ∧
      (w.self.task = none → t = task.ptr)) (hres : w.tasks.Reserved w.addr h) :
    Ends Panic.IsOp (fun w' => Frame w w' ∧ w'.WaitingIn task.ptr h ∧
      w'.tasks.Reserved w.addr h ∧ w'.self.completionStatus.waker = some cx)
      (w.registerWaker h ⟨cx, some task⟩) := by
  obtain ⟨w₁, hw₁, hframe, hplace, htask, hres₁, hwaker⟩ : ∃ w₁,
      (if wasip3TaskV2 ≤ task.version then (w.setWaker (some cx)).rememberTask h task
        else w.setWaker (some cx)) = w₁ ∧ Frame w w₁ ∧
      (w₁.tasks.Nowhere w.addr ∨ w₁.tasks.OnlyAt w.addr task.ptr h) ∧
      (w₁.self.task = none ∨ w₁.self.task = some ⟨task.ptr, some h⟩) ∧
      w₁.tasks.Reserved w.addr h ∧ w₁.self.completionStatus.waker = some cx := by
    refine ⟨_, rfl, ?_⟩
    split
    · obtain ⟨hf, hp, ht, hr⟩ :=
        rememberTask_spec (w := w.setWaker (some cx)) (h := h) task hwhere hres
      exact ⟨⟨hf.op, hf.state, hf.code, hf.addr, hf.calls, hf.dropped⟩, hp, Or.inr ht, hr,
        rememberTask_waker task⟩
    · have hnone : w.self.task = none := by
        by_contra hne
        exact ‹¬_› (hv2 hne)
      refine ⟨⟨rfl, rfl, rfl, rfl, rfl, rfl⟩, ?_, Or.inl hnone, hres, rfl⟩
      rcases hwhere with ⟨hn, -⟩ | ⟨t, hw, ht⟩
      · exact Or.inl hn
      · exact Or.inr (ht hnone ▸ hw.1)
  have haddr : w₁.addr = w.addr := hframe.addr
  have hrun : w.registerWaker h ⟨cx, some task⟩ =
      .ok (w₁.setTasks (w₁.tasks.waitableRegister task.ptr h w.addr).2) := by
    have hall : ((w₁.tasks.waitableRegister task.ptr h w.addr).1.all (· = w.addr)) = true :=
      hres₁.all_eq
    rw [registerWaker, hcode, if_neg (by simp)]
    simp only [if_neg (Nat.not_lt.mpr hversion), hw₁, haddr, hall, if_true]
  rw [hrun, Ends_ok]
  refine ⟨⟨hframe.op, hframe.state, hframe.code, hframe.addr, hframe.calls, hframe.dropped⟩,
    ⟨?_, htask⟩, ?_, hwaker⟩
  · rw [setTasks_addr, haddr, setTasks_tasks]
    exact hplace.elim Tasks.Nowhere.register Tasks.OnlyAt.register
  · exact hres₁.register

theorem unregisterWaker_spec {current : Option Wasip3Task} (hwait : w.WaitingIn t h)
    (hres : w.tasks.Reserved w.addr h) (hversion : ∀ task ∈ current, wasip3TaskV1 ≤ task.version)
    (hcurrent : w.self.task = none → ∃ task ∈ current, task.ptr = t) :
    Ends Panic.IsOp (fun w' => Frame w w' ∧ w'.tasks.Nowhere w.addr ∧ w'.tasks.Reserved w.addr h)
      (w.unregisterWaker h current) := by
  have hall : ∀ t', ((w.tasks.waitableUnregister t' h).1.all (· = w.addr)) = true :=
    fun _ => hres.all_eq
  rcases hwait with ⟨ho, htask | htask⟩
  · obtain ⟨task, htask', rfl⟩ := hcurrent htask
    have hrun : w.unregisterWaker h current =
        .ok (w.setTasks (w.tasks.waitableUnregister task.ptr h).2) := by
      rw [Option.mem_def.mp htask']
      rw [unregisterWaker.eq_def, htask]
      simp only [if_neg (Nat.not_lt.mpr (hversion task htask')), hall, if_true]
    rw [hrun]
    exact ⟨⟨rfl, rfl, rfl, rfl, rfl, rfl⟩, ho.unregister, hres.unregister⟩
  · have hrun : w.unregisterWaker h current =
        .ok ((w.setTask (some ⟨t, none⟩)).setTasks (w.tasks.waitableUnregister t h).2) := by
      rw [unregisterWaker.eq_def, htask]
      exact if_pos (hall t)
    rw [hrun]
    exact ⟨⟨rfl, rfl, rfl, rfl, rfl, rfl⟩, ho.unregister, hres.unregister⟩

theorem call_spec {α : Type} (m : OpM S.σ α) :
    Ends Panic.IsOp (fun r => ∃ s, m w.self.op = .ok (r.1, s) ∧ r.2 = w.setOp s) (w.call m) := by
  rw [call]
  cases hm : m w.self.op with
  | ok r => exact ⟨r.2, rfl, rfl⟩
  | error text => exact ⟨text, rfl⟩

theorem call_waitable (C : S.Contract) (ip : S.InProgress) :
    Ends Panic.IsOp (fun r => S.waitable w.self.op ip = some r.1 ∧ r.2 = w)
      (w.call (S.inProgressWaitable ip)) := by
  refine (call_spec _).mono fun r hr => ?_
  obtain ⟨s, hrun, hw⟩ := hr
  obtain rfl := C.waitable_state ip _ _ _ hrun
  exact ⟨by rw [WaitableOp.waitable, hrun], hw⟩

/-! ## Looking at a code -/

/-- In progress, registered nowhere, and no code is left to look at. -/
structure Detached (w : World S) (ip : S.InProgress) : Prop where
  state : w.self.state = .inProgress ip
  nowhere : w.tasks.Nowhere w.addr
  code : w.self.completionStatus.code = none
  reserved : ∀ h, S.waitable w.self.op ip = some h → w.tasks.Reserved w.addr h

/-- In progress between two events: registered in one task, or with a code that
is still to be looked at. -/
structure InFlight (w : World S) (ip : S.InProgress) (h : Waitable) : Prop where
  state : w.self.state = .inProgress ip
  waitable : S.waitable w.self.op ip = some h
  reserved : w.tasks.Reserved w.addr h
  place : (∃ t, w.WaitingIn t h ∧ w.self.completionStatus.code = none ∧
      w.self.completionStatus.waker.isSome) ∨
    (w.tasks.Nowhere w.addr ∧ w.self.completionStatus.code.isSome)

/-- Completed or cancelled. -/
structure Over (w : World S) : Prop where
  state : w.self.state = .done
  nowhere : w.tasks.Nowhere w.addr
  cleared : w.Cleared

theorem clearRegistered_cleared : w.clearRegistered.Cleared := by
  intro c hc
  rw [clearRegistered, setTask_self_task] at hc
  obtain ⟨c', -, rfl⟩ := Option.map_eq_some_iff.mp hc
  rfl

/-- How a look at `code` leaves the world, when nothing is polling. -/
def Looked (C : S.Contract) (w : World S) (code : Code) (r : Poll S.Result × World S) : Prop :=
  r.2.addr = w.addr ∧ r.2.dropped = w.dropped ∧
    match r.1 with
    | .ready _ => r.2.Over ∧ r.2.calls = w.calls ++ [OpCall.update code true]
    | .pending => C.pending code = true ∧ (∃ ip, r.2.Detached ip) ∧
        r.2.calls = w.calls ++ [OpCall.update code false]

variable (C : S.Contract)

theorem updateWith_spec {ip : S.InProgress} (code : Code) (hw : w.Detached ip) :
    Ends Panic.IsOp (fun r => r.2.addr = w.addr ∧ r.2.dropped = w.dropped ∧
      r.2.calls = w.calls ++ [OpCall.update code r.1.isOk] ∧ r.2.Over ∧
      (w.self.task = none → r.2.self.task = none) ∧
      match r.1 with
      | .ok _ => True
      | .error ip' => C.pending code = true ∧ (r.2.setState (.inProgress ip')).Detached ip')
      (w.clearRegistered.updateWith code) := by
  have hstate : w.clearRegistered.self.state = .inProgress ip := hw.state
  rw [updateWith, hstate]
  refine (call_spec _).bind fun r hr => ?_
  obtain ⟨s, hrun, hr₂⟩ := hr
  obtain ⟨r, w'⟩ := r
  dsimp only at hrun hr₂ ⊢
  subst hr₂
  refine ⟨rfl, rfl, rfl, ⟨rfl, hw.nowhere, clearRegistered_cleared⟩, ?_, ?_⟩
  · intro hnone
    change w.self.task.map _ = none
    rw [hnone]
    rfl
  · cases r with
    | ok result => trivial
    | error ip' =>
      refine ⟨C.update_pending ip code _ ip' s hrun, ⟨rfl, hw.nowhere, hw.code, fun h hh => ?_⟩⟩
      have hsame : S.waitable s ip' = S.waitable w.self.op ip :=
        C.update_waitable ip code _ ip' s hrun
      exact hw.reserved h (hsame ▸ hh)

theorem pollCompleteWithCode_none {ip : S.InProgress} (code : Code) (hw : w.Detached ip) :
    Ends Panic.IsOp (Looked C w code) (w.pollCompleteWithCode none (some code)) := by
  refine (updateWith_spec C code hw).bind fun r hr => ?_
  obtain ⟨haddr, hdropped, hcalls, hover, -, hr⟩ := hr
  obtain ⟨r, w'⟩ := r
  cases r with
  | ok result => exact ⟨haddr, hdropped, hover, hcalls⟩
  | error ip' =>
    dsimp only at hr ⊢
    exact ⟨haddr, hdropped, hr.1, ⟨ip', hr.2⟩, hcalls⟩

/-! ## Polling -/

/-- Unlike `Looked`, a poll that finds the operation in progress waits for it. -/
def Polled (w : World S) (code : Code) (r : Poll S.Result × World S) : Prop :=
  r.2.addr = w.addr ∧ r.2.dropped = w.dropped ∧
    match r.1 with
    | .ready _ => r.2.Over ∧ r.2.calls = w.calls ++ [OpCall.update code true]
    | .pending => (∃ ip h, r.2.InFlight ip h) ∧ r.2.calls = w.calls ++ [OpCall.update code false]

/-- What the task must be for `register_waker` to leave the map we are in: a task
that cannot be cloned is only left by itself. -/
def PollsIn (w : World S) (task : Wasip3Task) : Prop :=
  wasip3TaskV1 ≤ task.version ∧ (w.self.task ≠ none → wasip3TaskV2 ≤ task.version)

include C in
theorem pollPending_spec {ip : S.InProgress} {cx : Waker} {task : Wasip3Task}
    (hstate : w.self.state = .inProgress ip) (hcode : w.self.completionStatus.code = none)
    (htask : w.PollsIn task)
    (hres : ∀ h, S.waitable w.self.op ip = some h → w.tasks.Reserved w.addr h)
    (hwhere : ∀ h, S.waitable w.self.op ip = some h → (w.tasks.Nowhere w.addr ∧ w.Cleared) ∨
      ∃ t, w.WaitingIn t h ∧ (w.self.task = none → t = task.ptr)) :
    Ends Panic.IsOp (fun r => r.1 = .pending ∧ r.2.addr = w.addr ∧ r.2.dropped = w.dropped ∧
        r.2.calls = w.calls ∧ ∃ h, r.2.InFlight ip h)
      (w.pollPending (some ⟨cx, some task⟩)) := by
  rw [pollPending, hstate]
  refine (call_waitable C ip).bind fun r hr => ?_
  obtain ⟨h, w'⟩ := r
  obtain ⟨hwaitable, rfl⟩ := hr
  refine (registerWaker_spec cx task hcode htask.1 htask.2 (hwhere h hwaitable)
    (hres h hwaitable)).bind fun w' hw' => ?_
  obtain ⟨hframe, hwait, hres', hwaker⟩ := hw'
  refine ⟨rfl, hframe.addr, hframe.dropped, hframe.calls, h, ?_⟩
  exact {
    state := hframe.state.trans hstate
    waitable := hframe.op ▸ hwaitable
    reserved := hframe.addr ▸ hres'
    place := Or.inl ⟨task.ptr, hwait, hframe.code.trans hcode, by simp [hwaker]⟩ }

include C in
theorem pollCompleteWithCode_some {ip : S.InProgress} {cx : Waker} {task : Wasip3Task} (code : Code)
    (hw : w.Detached ip) (htask : w.PollsIn task) :
    Ends Panic.IsOp (Polled w code)
      (w.pollCompleteWithCode (some ⟨cx, some task⟩) (some code)) := by
  refine (updateWith_spec C code hw).bind fun r hr => ?_
  obtain ⟨haddr, hdropped, hcalls, hover, hnone, hr⟩ := hr
  obtain ⟨r, w'⟩ := r
  cases r with
  | ok result => exact ⟨haddr, hdropped, hover, hcalls⟩
  | error ip' =>
    obtain ⟨-, hdetached⟩ := hr
    dsimp only at haddr hdropped hcalls hover hnone hdetached ⊢
    have htask' : (w'.setState (.inProgress ip')).PollsIn task :=
      ⟨htask.1, fun hne => htask.2 fun h => hne (hnone h)⟩
    refine (pollPending_spec C hdetached.state hdetached.code htask' hdetached.reserved
      fun h _ => Or.inl ⟨hdetached.nowhere, hover.cleared⟩).mono fun r hr => ?_
    obtain ⟨hpending, haddr', hdropped', hcalls', h, hflight⟩ := hr
    obtain ⟨r, w''⟩ := r
    dsimp only at hpending
    subst hpending
    exact ⟨haddr'.trans haddr, hdropped'.trans hdropped, ⟨ip', h, hflight⟩, hcalls'.trans hcalls⟩

/-! ## The invariant -/

/-- The history of an operation that waits: started, and so far kept in progress. -/
def OpenCalls (calls : List OpCall) : Prop :=
  ∃ codes : List Code, calls = .start :: codes.map (OpCall.update · false)

/-- The history of an operation that is over: never started, or completed by its
last code, which may be the answer to the one cancellation. -/
def ClosedCalls (calls : List OpCall) : Prop :=
  calls = [] ∨ ∃ opened asked code, OpenCalls opened ∧ (asked = [] ∨ asked = [OpCall.cancel]) ∧
    calls = opened ++ asked ++ [OpCall.update code true]

theorem OpenCalls.update {calls : List OpCall} (h : OpenCalls calls) (code : Code) :
    OpenCalls (calls ++ [OpCall.update code false]) := by
  obtain ⟨codes, rfl⟩ := h
  exact ⟨codes ++ [code], by simp⟩

theorem OpenCalls.close {calls : List OpCall} (h : OpenCalls calls) (code : Code) :
    ClosedCalls (calls ++ [OpCall.update code true]) :=
  Or.inr ⟨calls, [], code, h, Or.inl rfl, by simp⟩

theorem OpenCalls.cancel {calls : List OpCall} (h : OpenCalls calls) (code : Code) :
    ClosedCalls (calls ++ [OpCall.cancel] ++ [OpCall.update code true]) :=
  Or.inr ⟨calls, [OpCall.cancel], code, h, Or.inr rfl, rfl⟩

structure Fresh (w : World S) : Prop where
  nowhere : w.tasks.Nowhere w.addr
  task : w.self.task = none
  code : w.self.completionStatus.code = none
  calls : w.calls = []

inductive Inv (w : World S) : Prop
  | fresh (s : S.Start) (hstate : w.self.state = .start s) (h : w.Fresh)
      (hdropped : w.dropped = false)
  | inFlight (ip : S.InProgress) (h : Waitable) (hflight : w.InFlight ip h)
      (hcalls : OpenCalls w.calls) (hdropped : w.dropped = false)
  | settled (hover : w.Over) (hcalls : ClosedCalls w.calls)

theorem Inv.of_isDone (hinv : w.Inv) (hdone : w.self.isDone = true) :
    w.Over ∧ ClosedCalls w.calls := by
  rw [WaitableOperation.isDone] at hdone
  cases hinv with
  | fresh s hstate h => rw [hstate] at hdone; cases hdone
  | inFlight ip h hflight => rw [hflight.state] at hdone; cases hdone
  | settled hover hcalls => exact ⟨hover, hcalls⟩

theorem Over.isDone (hover : w.Over) : w.self.isDone = true := by
  rw [WaitableOperation.isDone, hover.state]

theorem Polled.inv {code : Code} {r : Poll S.Result × World S} (hr : Polled w code r)
    (hcalls : OpenCalls w.calls) (hdropped : w.dropped = false) : r.2.Inv := by
  obtain ⟨r, w'⟩ := r
  obtain ⟨-, hd, hr⟩ := hr
  cases r with
  | ready result => exact .settled hr.1 (hr.2 ▸ hcalls.close code)
  | pending =>
    obtain ⟨⟨ip, h, hflight⟩, hcalls'⟩ := hr
    exact .inFlight ip h hflight (hcalls' ▸ hcalls.update code) (hd.trans hdropped)

/-- While no task is stored, what polls or cancels the operation is the task it
waits in; once one is stored, it is polled only in tasks that can be. -/
def Confined (w : World S) : Event → Prop
  | .poll _ task _ => (w.self.task ≠ none → wasip3TaskV2 ≤ task.version) ∧
      (w.self.task = none → ∀ t h, w.tasks.waitables t h = some w.addr → t = task.ptr)
  | .cancel current _ | .drop current _ => w.self.task = none →
      ∀ t h, w.tasks.waitables t h = some w.addr → ∃ task ∈ current, task.ptr = t
  | .deliver .. | .other _ => True

/-! ## Each event -/

theorem pollComplete_spec {cx : Waker} {task : Wasip3Task} {answer : Code} (hinv : w.Inv)
    (hok : allowed C w (.poll cx task answer)) (hconf : w.Confined (.poll cx task answer)) :
    Ends Panic.IsOp (fun r => r.2.Inv) (w.pollComplete ⟨cx, some task⟩ answer) := by
  obtain ⟨hdropped, hdone, hversion, hfresh⟩ := hok
  have htask : w.PollsIn task := ⟨hversion, hconf.1⟩
  cases hinv with
  | fresh s hstate h =>
    rw [pollComplete, hstate]
    refine (call_spec _).bind fun r hr => ?_
    obtain ⟨s', hrun, hr₂⟩ := hr
    obtain ⟨⟨code, ip⟩, w'⟩ := r
    dsimp only at hrun hr₂ ⊢
    subst hr₂
    have hdetached :
        ((((w.setState .done).setOp s').record .start).setState (.inProgress ip)).Detached ip := {
      state := rfl
      nowhere := h.nowhere
      code := h.code
      reserved := fun h hh t q hq => by
        have hfree : w.tasks.waitables t h = none := hfresh s hstate code ip s' hrun h hh t
        exact absurd (hfree.symm.trans hq) nofun }
    have hopen : OpenCalls (w.calls ++ [OpCall.start]) := ⟨[], by rw [h.calls]; rfl⟩
    exact (pollCompleteWithCode_some C code hdetached htask).mono fun r hr =>
      hr.inv hopen hdropped
  | inFlight ip h hflight hcalls =>
    rw [pollComplete, hflight.state]
    rcases hflight.place with ⟨t, hwait, hcode, -⟩ | ⟨hn, hcode⟩
    · rw [hcode]
      have hplace : ∀ h', S.waitable w.self.op ip = some h' → h' = h := fun h' hh =>
        Option.some.inj (hh.symm.trans hflight.waitable)
      refine (pollPending_spec (w := w.setCode none) C hflight.state rfl htask
        (fun h' hh => hplace h' hh ▸ hflight.reserved)
        (fun h' hh => Or.inr ⟨t, hplace h' hh ▸ hwait, fun hnone => ?_⟩)).mono fun r hr => ?_
      · exact hconf.2 hnone t h hwait.1.entry
      · obtain ⟨-, -, hd, hc, h', hflight'⟩ := hr
        exact .inFlight ip h' hflight' (hc ▸ hcalls) (hd.trans hdropped)
    · obtain ⟨code, hcode⟩ := Option.isSome_iff_exists.mp hcode
      rw [hcode]
      have hdetached : (w.setCode none).Detached ip := {
        state := hflight.state
        nowhere := hn
        code := rfl
        reserved := fun h' hh => by
          obtain rfl := Option.some.inj (hflight.waitable.symm.trans hh)
          exact hflight.reserved }
      exact (pollCompleteWithCode_some C code hdetached htask).mono fun r hr =>
        hr.inv hcalls hdropped
  | settled hover => rw [hover.isDone] at hdone; cases hdone

/-- The answer to a cancellation ends the operation. -/
theorem cancelInProgress_spec {ip : S.InProgress} {answer : Code} (hw : w.Detached ip)
    (hanswer : C.pending answer = false) :
    Ends Panic.IsOp (fun r => r.2.Over ∧
        r.2.calls = w.calls ++ [OpCall.cancel] ++ [OpCall.update answer true] ∧ r.2.addr = w.addr)
      (w.cancelInProgress answer) := by
  rw [cancelInProgress, hw.state]
  refine (call_spec _).bind fun r hr => ?_
  obtain ⟨s', hrun, hr₂⟩ := hr
  obtain ⟨⟨code, ip'⟩, w'⟩ := r
  dsimp only at hrun hr₂ ⊢
  subst hr₂
  obtain rfl := C.cancel_code ip answer _ code ip' s' hrun
  have hdetached : (((w.setOp s').record .cancel).setState (.inProgress ip')).Detached ip' := {
    state := rfl
    nowhere := hw.nowhere
    code := hw.code
    reserved := fun h hh => hw.reserved h (C.cancel_waitable ip code _ code ip' s' hrun ▸ hh) }
  refine (pollCompleteWithCode_none C code hdetached).bind fun r hr => ?_
  obtain ⟨r, w'⟩ := r
  obtain ⟨haddr, -, hr⟩ := hr
  cases r with
  | ready result =>
    obtain ⟨hover, hcalls⟩ := hr
    refine (call_spec _).mono fun r hr => ?_
    obtain ⟨s'', -, hr₂⟩ := hr
    rw [hr₂]
    exact ⟨⟨hover.state, hover.nowhere, hover.cleared⟩, hcalls, haddr⟩
  | pending => exact absurd (hanswer.symm.trans hr.1) nofun

theorem cancel_spec {current : Option Wasip3Task} {answer : Code} (hinv : w.Inv)
    (hok : allowed C w (.cancel current answer)) (hconf : w.Confined (.cancel current answer)) :
    Ends Panic.IsOp (fun r => r.2.Over ∧ ClosedCalls r.2.calls) (w.cancel current answer) := by
  obtain ⟨-, hdone, hversion, hanswer⟩ := hok
  cases hinv with
  | fresh s hstate h =>
    rw [cancel, hstate]
    refine (call_spec _).mono fun r hr => ?_
    obtain ⟨s', -, hr₂⟩ := hr
    rw [hr₂]
    exact ⟨⟨rfl, h.nowhere, Cleared.none h.task⟩, Or.inl h.calls⟩
  | inFlight ip h hflight hcalls =>
    rw [cancel, hflight.state]
    have hreserved : ∀ h', S.waitable w.self.op ip = some h' → w.tasks.Reserved w.addr h' :=
      fun h' hh => Option.some.inj (hflight.waitable.symm.trans hh) ▸ hflight.reserved
    rcases hflight.place with ⟨t, hwait, hcode, -⟩ | ⟨hn, hcode⟩
    · rw [hcode]
      refine (call_waitable C ip).bind fun r hr => ?_
      obtain ⟨h', w'⟩ := r
      obtain ⟨hwaitable, rfl⟩ := hr
      obtain rfl := Option.some.inj (hwaitable.symm.trans hflight.waitable)
      refine (unregisterWaker_spec hwait hflight.reserved hversion
        fun hnone => hconf hnone t h' hwait.1.entry).bind fun w₁ hw₁ => ?_
      obtain ⟨hframe, hn, hres⟩ := hw₁
      have hdetached : w₁.Detached ip := {
        state := hframe.state.trans hflight.state
        nowhere := hframe.addr ▸ hn
        code := hframe.code.trans hcode
        reserved := fun h hh => by
          obtain rfl := Option.some.inj (hwaitable.symm.trans (hframe.op ▸ hh))
          exact hframe.addr ▸ hres }
      refine (cancelInProgress_spec C hdetached hanswer).mono fun r hr => ?_
      exact ⟨hr.1, hr.2.1 ▸ hframe.calls ▸ hcalls.cancel answer⟩
    · obtain ⟨code, hcode⟩ := Option.isSome_iff_exists.mp hcode
      rw [hcode]
      have hdetached : (w.setCode none).Detached ip := ⟨hflight.state, hn, rfl, hreserved⟩
      refine (pollCompleteWithCode_none C code hdetached).bind fun r hr => ?_
      obtain ⟨r, w'⟩ := r
      obtain ⟨haddr, -, hr⟩ := hr
      cases r with
      | ready result =>
        obtain ⟨hover, hcalls'⟩ := hr
        refine (call_spec _).mono fun r hr => ?_
        obtain ⟨s'', -, hr₂⟩ := hr
        rw [hr₂]
        exact ⟨⟨hover.state, hover.nowhere, hover.cleared⟩, hcalls' ▸ hcalls.close code⟩
      | pending =>
        obtain ⟨-, ⟨ip', hdetached'⟩, hcalls'⟩ := hr
        refine (cancelInProgress_spec C hdetached' hanswer).mono fun r hr => ?_
        exact ⟨hr.1, hr.2.1 ▸ hcalls' ▸ (hcalls.update code).cancel answer⟩
  | settled hover => rw [hover.isDone] at hdone; cases hdone

theorem dropFields_over (hover : w.Over) : w.dropFields.Over := by
  have htasks : w.dropFields.tasks = w.tasks := by
    rw [dropFields]
    cases htask : w.self.task with
    | none => rfl
    | some t =>
      have hnone : t.registered = none := hover.cleared t htask
      simp only [Tasks.dropCabiTask, hnone]
  refine ⟨hover.state, ?_, Cleared.none rfl⟩
  rw [htasks]
  exact hover.nowhere

theorem drop_spec {current : Option Wasip3Task} {answer : Code} (hinv : w.Inv)
    (hok : allowed C w (.drop current answer)) (hconf : w.Confined (.drop current answer)) :
    Ends Panic.IsOp Inv (w.drop current answer) := by
  rw [drop]
  split
  · obtain ⟨hover, hcalls⟩ := hinv.of_isDone ‹_›
    exact .settled (dropFields_over hover) hcalls
  · have hdone : w.self.isDone = false := Bool.not_eq_true _ ▸ ‹¬_›
    refine (cancel_spec C hinv ⟨hok.1, hdone, hok.2⟩ hconf).bind fun r hr => ?_
    exact .settled (dropFields_over hr.1) hr.2

/-- An event that wakes us takes our pointer out of the map. -/
theorem deliver_spec {code : Code} (hinv : w.Inv) (hok : (w.tasks.waitables t h).isSome) :
    Ends Panic.IsOp Inv (w.deliverWaitableEvent t h code) := by
  obtain ⟨p, hp⟩ := Option.isSome_iff_exists.mp hok
  have hfst : (w.tasks.waitableUnregister t h).1 = some p := hp
  rw [deliverWaitableEvent]
  simp only [hfst]
  split
  · rename_i hours
    subst hours
    cases hinv with
    | fresh s _ hf => exact absurd hp (hf.nowhere t h)
    | settled hover => exact absurd hp (hover.nowhere t h)
    | inFlight ip h' hflight hcalls hdropped =>
      rcases hflight.place with ⟨t', hwait, -, hwaker⟩ | ⟨hn, -⟩
      · obtain ⟨rfl, rfl⟩ := hwait.1.unique hp
        obtain ⟨waker, hwaker⟩ := Option.isSome_iff_exists.mp hwaker
        rw [cabiWake, setTasks_self, hwaker]
        exact .inFlight ip h ⟨hflight.state, hflight.waitable, hflight.reserved.unregister,
          Or.inr ⟨hwait.1.unregister, rfl⟩⟩ hcalls hdropped
      · exact absurd hp (hn t h)
  · cases hinv with
    | fresh s hs hf hd => exact .fresh s hs ⟨hf.nowhere.unregister, hf.task, hf.code, hf.calls⟩ hd
    | settled hover hcalls => exact .settled ⟨hover.state, hover.nowhere.unregister, hover.cleared⟩ hcalls
    | inFlight ip h' hflight hcalls hdropped =>
      refine .inFlight ip h' ⟨hflight.state, hflight.waitable, hflight.reserved.unregister, ?_⟩
        hcalls hdropped
      rcases hflight.place with ⟨t', hwait, hcode⟩ | ⟨hn, hcode⟩
      · refine Or.inl ⟨t', ⟨fun t₁ h₁ => ?_, hwait.2⟩, hcode⟩
        rw [setTasks_tasks, Tasks.unregister_waitables]
        split
        · rename_i heq
          obtain ⟨rfl, rfl⟩ := heq
          refine iff_of_false nofun fun hat => ‹¬_› ?_
          exact Option.some.inj (hp.symm.trans ((hwait.1 t₁ h₁).mpr hat))
        · exact hwait.1 t₁ h₁
      · exact Or.inr ⟨hn.unregister, hcode⟩

theorem other_spec {ts : Tasks} (hinv : w.Inv) (hok : w.Untouched ts) : (w.setTasks ts).Inv := by
  obtain ⟨hours, hwaitable⟩ := hok
  have hnowhere : w.tasks.Nowhere w.addr → ts.Nowhere w.addr :=
    fun hn t h heq => hn t h ((hours t h).mp heq)
  cases hinv with
  | fresh s hs hf hd => exact .fresh s hs ⟨hnowhere hf.nowhere, hf.task, hf.code, hf.calls⟩ hd
  | settled hover hcalls => exact .settled ⟨hover.state, hnowhere hover.nowhere, hover.cleared⟩ hcalls
  | inFlight ip h hflight hcalls hdropped =>
    have hsame := (hwaitable ip h hflight.state hflight.waitable).1
    refine .inFlight ip h ⟨hflight.state, hflight.waitable, fun t q hq => ?_, ?_⟩ hcalls hdropped
    · exact hflight.reserved t q ((hsame t) ▸ hq)
    · rcases hflight.place with ⟨t, hwait, hcode⟩ | ⟨hn, hcode⟩
      · exact Or.inl ⟨t, ⟨fun t' h' => (hours t' h').trans (hwait.1 t' h'), hwait.2⟩, hcode⟩
      · exact Or.inr ⟨hnowhere hn, hcode⟩

theorem exec_spec {e : Event} (hinv : w.Inv) (hok : allowed C w e) (hconf : w.Confined e) :
    Ends Panic.IsOp Inv (w.exec e) := by
  cases e with
  | poll cx task answer => exact (pollComplete_spec C hinv hok hconf).map
  | deliver t h code => exact deliver_spec hinv hok.2
  | cancel current answer =>
    exact ((cancel_spec C hinv hok hconf).mono fun r hr => Inv.settled hr.1 hr.2).map
  | drop current answer => exact drop_spec C hinv hok hconf
  | other ts => exact other_spec hinv hok

end World

end Rt

end WitBindgen
