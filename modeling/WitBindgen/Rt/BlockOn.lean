import WitBindgen.Rt.Executor

/-!
# Running a future to completion

`block_on` drives a task by itself: it calls the callback and, by the code that
returns, polls the waitable set of the task or waits for it. The set is made by the
first waitable that is registered with the task, among them the wakeup stream. The
future is any sequence of registrations, wakeups and polls.
-/

namespace WitBindgen

namespace Rt

namespace BlockOn

open Executor (SleepState CallbackCode)

/-- `SharedTaskState`, and the state for wakeups between tasks, which is there with the
feature `inter-task-wakeup`. -/
structure Task where
  interTaskWakeup : Bool
  sleepState : SleepState
  waitables : List Waitable
  waitableSet : Option (List Waitable)
  stream : Option Waitable
  streamReading : Bool

/-- The event of a waitable, or `EVENT_NONE`. -/
abbrev HostEvent := Option Waitable

inductive Phase (ρ : Type) where
  | called (event : HostEvent)
  /-- In the callback, before a turn of the loop. -/
  | delivered (looped : Bool)
  | polling
  | polled (ready : Bool)
  | returned (code : CallbackCode)
  | over (value : ρ)

structure State (ρ : Type) where
  task : Task
  phase : Phase ρ
  result : Option ρ

/-! ## The task -/

namespace Task

variable (x : Task) (h : Waitable)

def new (interTaskWakeup : Bool) : Task := ⟨interTaskWakeup, .polling, [], none, none, false⟩

def removeFromSets : Task := { x with waitableSet := x.waitableSet.map (·.filter (· ≠ h)) }

def addWaitable : Task :=
  { x with waitableSet := some (h :: (x.waitableSet.getD []).filter (· ≠ h)) }

def waitableRegister : Task :=
  { x.addWaitable h with waitables := h :: x.waitables.filter (· ≠ h) }

def waitableUnregister : Task :=
  { x.removeFromSets h with waitables := x.waitables.filter (· ≠ h) }

/-- A wakeup of a task that sleeps writes to the stream it reads from. -/
def wake : Except String Task :=
  match x.sleepState with
  | .polling | .woken => .ok { x with sleepState := .woken }
  | .sleeping =>
    if x.interTaskWakeup then
      if x.streamReading then .ok { x with sleepState := .woken }
      else .error "assertion `left == right` failed"
    else .error "Cannot support cross-component-model-task wakeup"

def deliverWaitableEvent : Except String Task :=
  let x := x.removeFromSets h
  if x.stream = some h then .ok { x with streamReading := false }
  else if h ∈ x.waitables then .ok { x with waitables := x.waitables.filter (· ≠ h) }
  else .error "called `Option::unwrap()` on a `None` value"

def cancelInterTaskStreamRead : Except String Task :=
  if x.streamReading then
    match x.stream with
    | some h => .ok { x.removeFromSets h with streamReading := false }
    | none => .error "called `Option::unwrap()` on a `None` value"
  else .ok x

/-- `h` is the handle of the stream, should it be made now. -/
def readInterTaskStream : Except String Task :=
  if x.interTaskWakeup then
    if x.streamReading then
      match x.stream with
      | some _ => .ok x
      | none => .error "assertion failed: !self.inter_task_wakeup.stream_reading"
    else
      let h := x.stream.getD h
      .ok ({ x with stream := some h, streamReading := true }.addWaitable h)
  else if x.waitables = [] then
    .error "Rust task cannot sleep waiting only on Rust-originating events"
  else .ok x

/-- `set.as_ref().unwrap()`. -/
def set : Except String (List Waitable) :=
  match x.waitableSet with
  | some members => .ok members
  | none => .error "called `Option::unwrap()` on a `None` value"

/-- A member of the set of the task. -/
def Joined : Prop := h ∈ x.waitableSet.getD []

instance : Decidable (x.Joined h) := inferInstanceAs (Decidable (_ ∈ _))

/-- The handle is of no waitable of the task. -/
def Fresh : Prop := ¬ x.Joined h ∧ h ∉ x.waitables ∧ x.stream ≠ some h

end Task

/-! ## `block_on` -/

/-- What the future does while it is polled or its callbacks run. -/
inductive Action where
  | register (h : Waitable)
  | unregister (h : Waitable)
  | wake

inductive Event (ρ : Type) where
  | callback
  | turn
  | act (a : Action)
  /-- The future returns. -/
  | complete (value : ρ)
  /-- The futures of the task are finished, or pending. -/
  | endPoll (ready : Bool)
  /-- `event` is what the host has for a poll of the set, `h` is as in
  `readInterTaskStream`. -/
  | endTurn (event : HostEvent) (h : Waitable)
  /-- `block_on` goes by the code: `event` is what the host answers. -/
  | resume (event : HostEvent)

variable {ρ : Type}

namespace State

variable (s : State ρ)

def act (x : Task) : Action → Except String Task
  | .register h => .ok (x.waitableRegister h)
  | .unregister h => .ok (x.waitableUnregister h)
  | .wake => x.wake

/-- `callback`, up to the loop. -/
def callback (event : HostEvent) : Except String Task :=
  let x := { s.task with sleepState := .woken }
  match event with
  | none => .ok x
  | some h => x.deliverWaitableEvent h

def turn (looped : Bool) : Except String (State ρ) := do
  let x ← if looped then .ok s.task else s.task.cancelInterTaskStreamRead
  pure { s with task := { x with sleepState := .polling }, phase := .polling }

def endTurn (ready : Bool) (event : HostEvent) (h : Waitable) : Except String (State ρ) :=
  let x := s.task
  let remaining : Bool := x.waitables ≠ []
  if ready then
    if remaining then do
      let _ ← x.set
      pure { s with phase := .returned .wait }
    else pure { s with phase := .returned .exit }
  else if x.sleepState = .woken then
    if remaining then do
      let _ ← x.set
      match event with
      | some h => do
          let x ← x.deliverWaitableEvent h
          pure { s with task := x, phase := .delivered true }
      | none => pure { s with phase := .returned .yield }
    else pure { s with phase := .returned .yield }
  else do
    let x ← { x with sleepState := .sleeping }.readInterTaskStream h
    let _ ← x.set
    pure { s with task := x, phase := .returned .wait }

def resume (code : CallbackCode) (event : HostEvent) : Except String (State ρ) :=
  match code with
  | .exit =>
    match s.result with
    | some value => .ok { s with phase := .over value }
    | none => .error "called `Option::unwrap()` on a `None` value"
  | .yield | .wait => do
      let _ ← s.task.set
      pure { s with phase := .called event }

def exec (e : Event ρ) : Except String (State ρ) :=
  match e, s.phase with
  | .callback, .called event =>
    (fun x => { s with task := x, phase := .delivered false }) <$> s.callback event
  | .turn, .delivered looped => s.turn looped
  | .act a, _ => (fun x => { s with task := x }) <$> act s.task a
  | .complete value, _ => .ok { s with result := some value }
  | .endPoll ready, _ => .ok { s with phase := .polled ready }
  | .endTurn event h, .polled ready => s.endTurn ready event h
  | .resume event, .returned code => s.resume code event
  | _, _ => .ok s

/-- What can happen next. While `block_on` waits other tasks run, which may wake this one
and take over an operation that is registered with it. -/
def allowed : Event ρ → Prop
  | .callback => ∃ event, s.phase = .called event
  | .turn => ∃ looped, s.phase = .delivered looped
  | .act a =>
    match a with
    | .register h => (s.phase = .polling ∨ ∃ looped, s.phase = .delivered looped) ∧
        s.task.stream ≠ some h
    | .unregister _ | .wake => (s.phase = .polling ∨ ∃ looped, s.phase = .delivered looped) ∨
        s.phase = .returned .wait
  | .complete _ => s.phase = .polling ∧ s.result = none
  | .endPoll ready => s.phase = .polling ∧ (ready = true → s.result.isSome)
  | .endTurn event h => (∃ ready, s.phase = .polled ready) ∧ (∀ h ∈ event, s.task.Joined h) ∧ s.task.Fresh h
  | .resume event => (∃ code, s.phase = .returned code) ∧ ∀ h ∈ event, s.task.Joined h

end State

/-- The runs of `block_on` whose steps meet `ok`. -/
def runs (interTaskWakeup : Bool) (ok : State ρ → Event ρ → Prop) :
    System (State ρ) (Event ρ) String where
  init s := s = ⟨.new interTaskWakeup, .called none, none⟩
  allowed s e := s.allowed e ∧ ok s e
  exec s e := s.exec e

/-- What `block_on` has to keep. -/
structure Safe (ok : State ρ → Event ρ → Prop) (s : State ρ) : Prop where
  /-- There is a set to poll or to wait for. -/
  set : ∀ code, s.phase = .returned code → code ≠ .exit → s.task.waitableSet.isSome
  steps : ∀ e, s.allowed e → ok s e → ∃ s', s.exec e = .ok s'
  /-- What is returned is what the future returned. -/
  value : ∀ v, s.phase = .over v → s.result = some v
  /-- Once the futures are finished and nothing is waited for, the value is returned. -/
  returns : s.phase = .polled true → s.task.waitables = [] → ∀ event h, ∃ v s₁ s₂,
    s.result = some v ∧ s.exec (.endTurn event h) = .ok s₁ ∧
      s₁.exec (.resume none) = .ok s₂ ∧ s₂.phase = .over v

/-- A task that is pending has somewhere to wait: it was woken and has a set, or it may
sleep. A task that sleeps can be woken. -/
def CanWait (s : State ρ) : Event ρ → Prop
  | .endTurn _ _ => s.phase = .polled false →
      if s.task.sleepState = .woken then s.task.waitableSet.isSome
      else s.task.interTaskWakeup = true ∨ s.task.waitables ≠ []
  | .act .wake => s.task.sleepState = .sleeping → s.task.interTaskWakeup = true
  | _ => True

/-! ## The task stays in order -/

namespace Task

/-- The set holds the waitables of the map and the stream that is read from. -/
structure Good (x : Task) : Prop where
  members : ∀ h, x.Joined h → h ∈ x.waitables ∨ (x.stream = some h ∧ x.streamReading = true)
  set : x.waitables ≠ [] → x.waitableSet.isSome
  reading : x.streamReading = true → x.stream.isSome ∧ x.waitableSet.isSome
  own : ∀ h, x.stream = some h → h ∉ x.waitables
  sleeping : x.sleepState = .sleeping → x.interTaskWakeup = true → x.streamReading = true

variable {x x' : Task} {h h' : Waitable}

theorem joined_removed : (x.removeFromSets h).Joined h' ↔ x.Joined h' ∧ h' ≠ h := by
  rw [Joined, Joined, removeFromSets]
  cases x.waitableSet <;> simp

theorem joined_added : (x.addWaitable h).Joined h' ↔ h' = h ∨ x.Joined h' := by
  simp only [Joined, addWaitable, Option.getD_some, List.mem_cons, List.mem_filter,
    decide_eq_true_eq]
  by_cases heq : h' = h <;> simp [heq]

theorem removed_isSome : (x.removeFromSets h).waitableSet.isSome = x.waitableSet.isSome := by
  rw [removeFromSets]
  exact Option.isSome_map

theorem Good.new (interTaskWakeup : Bool) : (new interTaskWakeup).Good :=
  ⟨fun _ h => absurd h (by simp [Joined, Task.new]), fun h => absurd rfl h, nofun, nofun, nofun⟩

theorem Good.sleepState {state : SleepState} (hx : x.Good) (hstate : state ≠ .sleeping) :
    Good { x with sleepState := state } :=
  ⟨hx.members, hx.set, hx.reading, hx.own, fun h => absurd h hstate⟩

theorem Good.register (hx : x.Good) (hown : x.stream ≠ some h) : (x.waitableRegister h).Good where
  members h' hjoined := by
    rcases joined_added.mp hjoined with rfl | hjoined
    · exact .inl List.mem_cons_self
    · refine (hx.members h' hjoined).imp_left fun hmem => ?_
      by_cases heq : h' = h
      · exact heq ▸ List.mem_cons_self
      · exact List.mem_cons_of_mem _ (List.mem_filter.mpr ⟨hmem, by simpa using heq⟩)
  set _ := rfl
  reading hreading := ⟨(hx.reading hreading).1, rfl⟩
  own h' hstream hmem := by
    rcases List.mem_cons.mp hmem with rfl | hmem
    · exact hown hstream
    · exact hx.own h' hstream (List.mem_filter.mp hmem).1
  sleeping := hx.sleeping

theorem Good.unregister (hx : x.Good) : (x.waitableUnregister h).Good where
  members h' hjoined := by
    obtain ⟨hjoined, hne⟩ := joined_removed.mp hjoined
    exact (hx.members h' hjoined).imp_left fun hmem =>
      List.mem_filter.mpr ⟨hmem, by simpa using hne⟩
  set hne := by
    refine removed_isSome.trans (hx.set fun hnil => hne ?_)
    change x.waitables.filter _ = []
    rw [hnil, List.filter_nil]
  reading hreading := ⟨(hx.reading hreading).1, removed_isSome.trans (hx.reading hreading).2⟩
  own h' hstream hmem := hx.own h' hstream (List.mem_filter.mp hmem).1
  sleeping := hx.sleeping

theorem Good.wake (hx : x.Good) (hcan : x.sleepState = .sleeping → x.interTaskWakeup = true) :
    ∃ x', x.wake = .ok x' ∧ x'.Good ∧ x'.waitableSet = x.waitableSet := by
  rw [Task.wake]
  cases hstate : x.sleepState with
  | polling => exact ⟨_, rfl, hx.sleepState nofun, rfl⟩
  | woken => exact ⟨_, rfl, hx.sleepState nofun, rfl⟩
  | sleeping =>
    have hfeature := hcan hstate
    rw [if_pos hfeature, if_pos (hx.sleeping hstate hfeature)]
    exact ⟨_, rfl, hx.sleepState nofun, rfl⟩

/-- A member of the set has an entry, or is the stream. -/
theorem Good.deliver (hx : x.Good) (hjoined : x.Joined h) (hstate : x.sleepState ≠ .sleeping) :
    ∃ x', x.deliverWaitableEvent h = .ok x' ∧ x'.Good := by
  rw [deliverWaitableEvent]
  rcases hx.members h hjoined with hmem | ⟨hstream, hreading⟩
  · have hother : x.stream ≠ some h := fun hstream => hx.own h hstream hmem
    refine ⟨x.waitableUnregister h, ?_, hx.unregister⟩
    exact (if_neg hother).trans (if_pos hmem)
  · refine ⟨{ x.removeFromSets h with streamReading := false }, if_pos hstream, ?_⟩
    refine ⟨fun h' hjoined' => ?_, fun hne => removed_isSome.trans (hx.set hne), nofun, hx.own,
      fun hsleeping => absurd hsleeping hstate⟩
    obtain ⟨hjoined', hne⟩ := joined_removed.mp hjoined'
    rcases hx.members h' hjoined' with hmem | ⟨hstream', -⟩
    · exact .inl hmem
    · exact absurd (Option.some.inj (hstream'.symm.trans hstream)) hne

theorem deliver_sleepState (hrun : x.deliverWaitableEvent h = .ok x') :
    x'.sleepState = x.sleepState := by
  simp only [deliverWaitableEvent] at hrun
  split at hrun
  · cases hrun
    rfl
  · split at hrun
    · cases hrun
      rfl
    · cases hrun

theorem wake_sleepState (hrun : x.wake = .ok x') : x'.sleepState = .woken := by
  rw [Task.wake] at hrun
  split at hrun
  · cases hrun
    rfl
  · cases hrun
    rfl
  · split at hrun
    · split at hrun
      · cases hrun
        rfl
      · cases hrun
    · cases hrun

theorem Good.cancelRead (hx : x.Good) (hstate : x.sleepState ≠ .sleeping) :
    ∃ x', x.cancelInterTaskStreamRead = .ok x' ∧ x'.Good := by
  rw [cancelInterTaskStreamRead]
  cases hreading : x.streamReading with
  | false => exact ⟨x, rfl, hx⟩
  | true =>
    obtain ⟨hstream, hset⟩ := hx.reading hreading
    obtain ⟨h, hh⟩ := Option.isSome_iff_exists.mp hstream
    rw [if_pos rfl, hh]
    refine ⟨_, rfl, ⟨fun h' hjoined => ?_, fun hne => removed_isSome.trans (hx.set hne), nofun,
      hx.own, fun hsleeping => absurd hsleeping hstate⟩⟩
    obtain ⟨hjoined, hne⟩ := joined_removed.mp hjoined
    rcases hx.members h' hjoined with hmem | ⟨hstream', -⟩
    · exact .inl hmem
    · exact absurd (Option.some.inj (hstream'.symm.trans hh)) hne

/-- The task that goes to sleep reads from its stream, or has something else to wait
for. -/
theorem Good.read (hx : x.Good) (hfresh : x.Fresh h)
    (hcan : x.interTaskWakeup = true ∨ x.waitables ≠ []) :
    ∃ x', { x with sleepState := .sleeping }.readInterTaskStream h = .ok x' ∧ x'.Good ∧
      x'.waitableSet.isSome := by
  rw [readInterTaskStream]
  by_cases hfeature : x.interTaskWakeup = true
  · rw [if_pos hfeature]
    by_cases hreading : x.streamReading = true
    · obtain ⟨hstream, hset⟩ := hx.reading hreading
      refine ⟨{ x with sleepState := .sleeping }, ?_, ⟨hx.members, hx.set, hx.reading, hx.own,
        fun _ _ => hreading⟩, hset⟩
      obtain ⟨h', hh'⟩ := Option.isSome_iff_exists.mp hstream
      rw [if_pos hreading, hh']
    · rw [if_neg hreading]
      have hown : x.stream.getD h ∉ x.waitables := by
        cases hstream : x.stream with
        | none => exact hfresh.2.1
        | some h' => exact hx.own h' hstream
      refine ⟨_, rfl, ⟨fun h' hjoined => ?_, fun _ => rfl, fun _ => ⟨rfl, rfl⟩, ?_,
        fun _ _ => rfl⟩, rfl⟩
      · rcases joined_added.mp hjoined with rfl | hjoined
        · exact .inr ⟨rfl, rfl⟩
        · exact (hx.members h' hjoined).imp_right fun hread => absurd hread.2 hreading
      · intro h' heq
        obtain rfl : x.stream.getD h = h' := Option.some.inj heq
        exact hown
  · have hwait := hcan.resolve_left hfeature
    rw [if_neg hfeature, if_neg hwait]
    exact ⟨_, rfl, ⟨hx.members, hx.set, hx.reading, hx.own, fun _ h => absurd h hfeature⟩,
      hx.set hwait⟩

end Task

/-! ## So does the run -/

/-- What is known where the run stands. -/
def AtPhase (s : State ρ) : Prop :=
  match s.phase with
  | .called event => ∀ h ∈ event, s.task.Joined h
  | .delivered _ | .polling => s.task.sleepState ≠ .sleeping
  | .polled ready => s.task.sleepState ≠ .sleeping ∧ (ready = true → s.result.isSome)
  | .returned .exit => s.result.isSome
  | .returned _ => s.task.waitableSet.isSome
  | .over v => s.result = some v

structure Inv (s : State ρ) : Prop where
  task : s.task.Good
  phase : AtPhase s

variable {s s' : State ρ}

theorem Inv.set (h : Inv s) {code : CallbackCode} (hphase : s.phase = .returned code)
    (hcode : code ≠ .exit) : s.task.waitableSet.isSome := by
  have hat := h.phase
  rw [AtPhase, hphase] at hat
  cases code with
  | exit => exact absurd rfl hcode
  | yield => exact hat
  | wait => exact hat

theorem Task.set_ok {x : Task} (h : x.waitableSet.isSome) : ∃ members, x.set = .ok members := by
  obtain ⟨members, hmembers⟩ := Option.isSome_iff_exists.mp h
  exact ⟨members, by rw [Task.set, hmembers]⟩

theorem Inv.callback (h : Inv s) {event : HostEvent} (hphase : s.phase = .called event) :
    ∃ s', s.exec .callback = .ok s' ∧ Inv s' := by
  have hat := h.phase
  rw [AtPhase, hphase] at hat
  have hgood : Task.Good { s.task with sleepState := .woken } := h.task.sleepState nofun
  simp only [State.exec, hphase, State.callback]
  cases event with
  | none => exact ⟨_, rfl, hgood, nofun⟩
  | some w =>
    obtain ⟨x, hx, hgood'⟩ := hgood.deliver (hat w rfl) nofun
    refine ⟨_, congrArg _ hx, hgood', ?_⟩
    have hsleep : x.sleepState = .woken := Task.deliver_sleepState hx
    exact hsleep.trans_ne nofun

theorem Inv.turn (h : Inv s) {looped : Bool} (hphase : s.phase = .delivered looped) :
    ∃ s', s.exec .turn = .ok s' ∧ Inv s' := by
  have hat := h.phase
  rw [AtPhase, hphase] at hat
  simp only [State.exec, hphase, State.turn]
  cases looped with
  | true => exact ⟨_, rfl, h.task.sleepState nofun, nofun⟩
  | false =>
    obtain ⟨x, hx, hgood⟩ := h.task.cancelRead hat
    refine ⟨{ s with task := { x with sleepState := .polling }, phase := .polling }, ?_,
      hgood.sleepState nofun, nofun⟩
    rw [if_neg (by simp), hx]
    rfl

/-- Nothing that is known of a phase in which user code runs is lost by what it does. -/
theorem AtPhase.act {x : Task} (h : AtPhase s)
    (hphase : (s.phase = .polling ∨ ∃ looped, s.phase = .delivered looped) ∨
      (s.phase = .returned .wait ∧ x.waitableSet.isSome = s.task.waitableSet.isSome))
    (hsleep : s.task.sleepState ≠ .sleeping → x.sleepState ≠ .sleeping) :
    AtPhase { s with task := x } := by
  rw [AtPhase] at h ⊢
  rcases hphase with (hphase | ⟨looped, hphase⟩) | ⟨hphase, hset⟩
  · simp only [hphase] at h ⊢
    exact hsleep h
  · simp only [hphase] at h ⊢
    exact hsleep h
  · simp only [hphase] at h ⊢
    rw [hset]
    exact h

theorem Inv.act (h : Inv s) {a : Action} (hallowed : s.allowed (.act a))
    (hcan : CanWait s (.act a)) : ∃ s', s.exec (.act a) = .ok s' ∧ Inv s' := by
  cases a with
  | register w =>
    obtain ⟨hphase, hown⟩ := hallowed
    exact ⟨_, rfl, h.task.register hown, h.phase.act (.inl hphase) id⟩
  | unregister w =>
    exact ⟨_, rfl, h.task.unregister,
      h.phase.act (hallowed.imp_right fun hp => ⟨hp, Task.removed_isSome⟩) id⟩
  | wake =>
    obtain ⟨x, hx, hgood, hset⟩ := h.task.wake hcan
    refine ⟨{ s with task := x }, ?_, hgood, h.phase.act
      (hallowed.imp_right fun hp => ⟨hp, congrArg Option.isSome hset⟩) fun _ => ?_⟩
    · change (fun x => { s with task := x }) <$> s.task.wake = _
      rw [hx]
      rfl
    · exact (Task.wake_sleepState hx).trans_ne nofun

theorem Inv.endTurn (h : Inv s) {event : HostEvent} {w : Waitable}
    (hallowed : s.allowed (.endTurn event w)) (hcan : CanWait s (.endTurn event w)) :
    ∃ s', s.exec (.endTurn event w) = .ok s' ∧ Inv s' := by
  obtain ⟨⟨ready, hphase⟩, hevent, hfresh⟩ := hallowed
  have hat := h.phase
  rw [AtPhase, hphase] at hat
  obtain ⟨hawake, hresult⟩ := hat
  simp only [State.exec, hphase, State.endTurn]
  cases ready with
  | true =>
    rw [if_pos rfl]
    by_cases hremaining : s.task.waitables = []
    · rw [if_neg (by simp [hremaining])]
      exact ⟨_, rfl, h.task, hresult rfl⟩
    · obtain ⟨members, hmembers⟩ := Task.set_ok (h.task.set hremaining)
      rw [if_pos (by simpa using hremaining), hmembers]
      exact ⟨_, rfl, h.task, h.task.set hremaining⟩
  | false =>
    rw [if_neg (by simp)]
    have hcan' := hcan hphase
    by_cases hwoken : s.task.sleepState = .woken
    · rw [if_pos hwoken] at hcan' ⊢
      by_cases hremaining : s.task.waitables = []
      · rw [if_neg (by simp [hremaining])]
        exact ⟨_, rfl, h.task, hcan'⟩
      · obtain ⟨members, hmembers⟩ := Task.set_ok hcan'
        rw [if_pos (by simpa using hremaining), hmembers]
        cases event with
        | none => exact ⟨_, rfl, h.task, hcan'⟩
        | some h' =>
          obtain ⟨x, hx, hgood⟩ := h.task.deliver (hevent h' rfl) hawake
          have hsleep := Task.deliver_sleepState hx
          refine ⟨{ s with task := x, phase := .delivered true }, ?_, hgood, hsleep.trans_ne hawake⟩
          change (s.task.deliverWaitableEvent h' >>= _) = _
          rw [hx]
          rfl
    · rw [if_neg hwoken] at hcan' ⊢
      obtain ⟨x, hx, hgood, hset⟩ := h.task.read hfresh hcan'
      obtain ⟨members, hmembers⟩ := Task.set_ok hset
      refine ⟨{ s with task := x, phase := .returned .wait }, ?_, hgood, hset⟩
      rw [hx]
      change (x.set >>= _) = _
      rw [hmembers]
      rfl

theorem Inv.resume (h : Inv s) {event : HostEvent} (hallowed : s.allowed (.resume event)) :
    ∃ s', s.exec (.resume event) = .ok s' ∧ Inv s' := by
  obtain ⟨⟨code, hphase⟩, hevent⟩ := hallowed
  have hat := h.phase
  rw [AtPhase, hphase] at hat
  simp only [State.exec, hphase]
  cases code with
  | exit =>
    obtain ⟨v, hv⟩ := Option.isSome_iff_exists.mp hat
    refine ⟨{ s with phase := .over v }, ?_, h.task, hv⟩
    simp only [State.resume, hv]
  | yield =>
    obtain ⟨members, hmembers⟩ := Task.set_ok hat
    refine ⟨{ s with phase := .called event }, ?_, h.task, hevent⟩
    simp only [State.resume, hmembers]
    rfl
  | wait =>
    obtain ⟨members, hmembers⟩ := Task.set_ok hat
    refine ⟨{ s with phase := .called event }, ?_, h.task, hevent⟩
    simp only [State.resume, hmembers]
    rfl

theorem Inv.step (h : Inv s) {e : Event ρ} (hallowed : s.allowed e) (hcan : CanWait s e) :
    ∃ s', s.exec e = .ok s' ∧ Inv s' := by
  cases e with
  | callback =>
    obtain ⟨event, hphase⟩ := hallowed
    exact h.callback hphase
  | turn =>
    obtain ⟨looped, hphase⟩ := hallowed
    exact h.turn hphase
  | act a => exact h.act hallowed hcan
  | complete v =>
    obtain ⟨hphase, -⟩ := hallowed
    have hat := h.phase
    rw [AtPhase, hphase] at hat
    refine ⟨{ s with result := some v }, rfl, h.task, ?_⟩
    rw [AtPhase]
    simp only [hphase]
    exact hat
  | endPoll ready =>
    obtain ⟨hphase, hready⟩ := hallowed
    have hat := h.phase
    rw [AtPhase, hphase] at hat
    exact ⟨{ s with phase := .polled ready }, rfl, h.task, hat, hready⟩
  | endTurn event w => exact h.endTurn hallowed hcan
  | resume event => exact h.resume hallowed

theorem Inv.of_reachable {interTaskWakeup : Bool}
    (h : (runs (ρ := ρ) interTaskWakeup CanWait).Reachable s) : Inv s := by
  refine System.Reachable.invariant (fun s hs => ?_) (fun s e s' hinv hok hexec => ?_) h
  · obtain rfl : s = _ := hs
    exact ⟨Task.Good.new interTaskWakeup, nofun⟩
  · obtain ⟨s'', hexec', hinv'⟩ := hinv.step hok.1 hok.2
    cases hexec.symm.trans hexec'
    exact hinv'

/-! ## When `block_on` completes -/

theorem Inv.value (h : Inv s) (v : ρ) (hphase : s.phase = .over v) : s.result = some v := by
  have hat := h.phase
  rw [AtPhase, hphase] at hat
  exact hat

theorem Inv.returns (h : Inv s) (hphase : s.phase = .polled true) (hwaits : s.task.waitables = [])
    (event : HostEvent) (w : Waitable) : ∃ v s₁ s₂, s.result = some v ∧
      s.exec (.endTurn event w) = .ok s₁ ∧ s₁.exec (.resume none) = .ok s₂ ∧ s₂.phase = .over v := by
  have hat := h.phase
  rw [AtPhase, hphase] at hat
  obtain ⟨v, hv⟩ := Option.isSome_iff_exists.mp (hat.2 rfl)
  refine ⟨v, { s with phase := .returned .exit }, { s with phase := .over v }, hv, ?_, ?_, rfl⟩
  · simp only [State.exec, hphase, State.endTurn, hwaits]
    rfl
  · simp only [State.exec, State.resume, hv]

theorem Inv.safe (h : Inv s) : Safe CanWait s where
  set _ hphase hcode := h.set hphase hcode
  steps _ hallowed hcan := (h.step hallowed hcan).imp fun _ => And.left
  value := h.value
  returns := h.returns

/-- The callback panics, or `block_on` does with what it returns. -/
def Panics (s : State ρ) (e : Event ρ) : Prop :=
  (∃ text, s.exec e = .error text) ∨
    ∃ s', s.exec e = .ok s' ∧ ∀ event, ∃ text, s'.exec (.resume event) = .error text

/-- A task that is pending without anywhere to wait, or that sleeps and cannot be woken,
does not complete. -/
theorem Inv.panics (h : Inv s) {e : Event ρ} (hallowed : s.allowed e) (hcannot : ¬ CanWait s e) :
    Panics s e := by
  cases e with
  | act a =>
    cases a with
    | wake =>
      obtain ⟨hsleeping, hfeature⟩ := Classical.not_imp.mp hcannot
      refine .inl ⟨"Cannot support cross-component-model-task wakeup", ?_⟩
      change (fun x => { s with task := x }) <$> s.task.wake = _
      rw [Task.wake, hsleeping]
      simp only [if_neg hfeature]
      rfl
    | register w => exact absurd trivial hcannot
    | unregister w => exact absurd trivial hcannot
  | endTurn event w =>
    obtain ⟨hphase, hcannot⟩ := Classical.not_imp.mp hcannot
    by_cases hwoken : s.task.sleepState = .woken
    · rw [if_pos hwoken] at hcannot
      have hwaits : s.task.waitables = [] := by
        by_contra hne
        exact hcannot (h.task.set hne)
      have hset : s.task.waitableSet = none := by
        cases hset : s.task.waitableSet with
        | none => rfl
        | some members => exact absurd (by rw [hset]; rfl) hcannot
      refine .inr ⟨{ s with phase := .returned .yield }, ?_, fun event =>
        ⟨"called `Option::unwrap()` on a `None` value", ?_⟩⟩
      · simp only [State.exec, hphase, State.endTurn, hwoken, hwaits]
        rfl
      · simp only [State.exec, State.resume, Task.set, hset]
        rfl
    · rw [if_neg hwoken] at hcannot
      obtain ⟨hfeature, hwaits⟩ := not_or.mp hcannot
      have hwaits' : s.task.waitables = [] := not_not.mp hwaits
      refine .inl ⟨"Rust task cannot sleep waiting only on Rust-originating events", ?_⟩
      simp only [State.exec, hphase, State.endTurn, Bool.false_eq_true, if_false, if_neg hwoken,
        Task.readInterTaskStream, if_neg hfeature, hwaits', if_true]
      rfl
  | callback => exact absurd trivial hcannot
  | turn => exact absurd trivial hcannot
  | complete v => exact absurd trivial hcannot
  | endPoll ready => exact absurd trivial hcannot
  | resume event => exact absurd trivial hcannot

/-- In the runs in which a pending task always has somewhere to wait, `block_on` neither
panics nor loses the result. Any other step ends in a panic. -/
theorem blockOn_completes (interTaskWakeup : Bool) (s : State ρ)
    (h : (runs interTaskWakeup CanWait).Reachable s) :
    Safe CanWait s ∧ ∀ e, s.allowed e → ¬ CanWait s e → Panics s e :=
  ⟨(Inv.of_reachable h).safe, fun _ => (Inv.of_reachable h).panics⟩

/-- A future that registers a waitable, is woken and returns. -/
theorem blockOn_completes_registered :
    ∃ s : State Nat, s.phase = .returned .yield ∧ s.task.waitables = [7] ∧ Safe CanWait s := by
  have h₀ : (runs (ρ := Nat) true CanWait).Reachable ⟨.new true, .called none, none⟩ := .init _ rfl
  have h₁ : (runs (ρ := Nat) true CanWait).Reachable
      ⟨{ Task.new true with sleepState := .woken }, .delivered false, none⟩ :=
    h₀.step _ _ .callback ⟨⟨none, rfl⟩, trivial⟩ rfl
  have h₂ : (runs (ρ := Nat) true CanWait).Reachable ⟨.new true, .polling, none⟩ :=
    h₁.step _ _ .turn ⟨⟨false, rfl⟩, trivial⟩ rfl
  have h₃ : (runs (ρ := Nat) true CanWait).Reachable
      ⟨⟨true, .polling, [7], some [7], none, false⟩, .polling, none⟩ :=
    h₂.step _ _ (.act (.register 7)) ⟨⟨.inl rfl, nofun⟩, trivial⟩ rfl
  have h₄ : (runs (ρ := Nat) true CanWait).Reachable
      ⟨⟨true, .woken, [7], some [7], none, false⟩, .polling, none⟩ :=
    h₃.step _ _ (.act .wake) ⟨.inl (.inl rfl), nofun⟩ rfl
  have h₅ : (runs (ρ := Nat) true CanWait).Reachable
      ⟨⟨true, .woken, [7], some [7], none, false⟩, .polled false, none⟩ :=
    h₄.step _ _ (.endPoll false) ⟨⟨rfl, nofun⟩, trivial⟩ rfl
  refine ⟨_, rfl, rfl, (blockOn_completes true
    ⟨⟨true, .woken, [7], some [7], none, false⟩, .returned .yield, none⟩ ?_).1⟩
  exact h₅.step _ _ (.endTurn none 8)
    ⟨⟨⟨false, rfl⟩, nofun, by decide, by decide, nofun⟩, fun _ => rfl⟩ rfl

/-- A future that only yields: the callback returns `Yield`, and there is no set. -/
theorem yield_without_set :
    ∃ s : State Nat, (runs true fun _ _ => True).Reachable s ∧ ¬ Safe (fun _ _ => True) s := by
  have h₀ : (runs (ρ := Nat) true fun _ _ => True).Reachable ⟨.new true, .called none, none⟩ :=
    .init _ rfl
  have h₁ : (runs (ρ := Nat) true fun _ _ => True).Reachable
      ⟨{ Task.new true with sleepState := .woken }, .delivered false, none⟩ :=
    h₀.step _ _ .callback ⟨⟨none, rfl⟩, trivial⟩ rfl
  have h₂ : (runs (ρ := Nat) true fun _ _ => True).Reachable ⟨.new true, .polling, none⟩ :=
    h₁.step _ _ .turn ⟨⟨false, rfl⟩, trivial⟩ rfl
  have h₃ : (runs (ρ := Nat) true fun _ _ => True).Reachable
      ⟨{ Task.new true with sleepState := .woken }, .polling, none⟩ :=
    h₂.step _ _ (.act .wake) ⟨.inl (.inl rfl), trivial⟩ rfl
  have h₄ : (runs (ρ := Nat) true fun _ _ => True).Reachable
      ⟨{ Task.new true with sleepState := .woken }, .polled false, none⟩ :=
    h₃.step _ _ (.endPoll false) ⟨⟨rfl, nofun⟩, trivial⟩ rfl
  have h₅ : (runs (ρ := Nat) true fun _ _ => True).Reachable
      ⟨{ Task.new true with sleepState := .woken }, .returned .yield, none⟩ :=
    h₄.step _ _ (.endTurn none 8)
      ⟨⟨⟨false, rfl⟩, nofun, by decide, by decide, nofun⟩, trivial⟩ rfl
  refine ⟨_, h₅, fun hsafe => ?_⟩
  have hset := hsafe.set .yield rfl nofun
  cases hset

end BlockOn

end Rt

end WitBindgen
