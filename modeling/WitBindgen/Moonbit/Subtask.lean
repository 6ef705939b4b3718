import WitBindgen.Moonbit.Coroutine
import WitBindgen.Library.Runs

/-!
# Subtasks of the MoonBit runtime

`suspend_for_subtask` of `async/ev.mbt`: an asynchronous call of an import. What the
lowering of the call returned is a handle and a state; the rest of the states come as
events of the handle, or as the answer to a cancellation. Generated code hands over
two callbacks, one for the lowered arguments and one for a result that nobody takes.

An event takes its handle out of the waitable set and stays with the subscriber until
the coroutine goes on. The task can be cancelled before that, and a subtask whose last
state was delivered must not be cancelled.
-/

namespace WitBindgen

namespace Moonbit

namespace Subtask

abbrev CallId := Nat

inductive SubTaskState where
  | Starting
  | Started
  | Returned
  | Cancelled_before_started
  | Cancelled_before_returned
deriving DecidableEq

namespace SubTaskState

def terminal : SubTaskState → Bool
  | Starting | Started => false
  | _ => true

/-- Which states may come after which. -/
def leads : SubTaskState → SubTaskState → Bool
  | Starting, _ => true
  | Started, Started | Started, Returned | Started, Cancelled_before_returned => true
  | Started, _ => false
  | st, st' => st == st'

end SubTaskState

/-- How a call ends: it returns, or raises. -/
inductive Outcome where
  | returned
  | subTaskCancelled (before_started : Bool)
  | cancelled
deriving DecidableEq

/-- What a call does to others. `settle` is the callback of the arguments,
`dropResult` that of the result; with `subtask_cancel` and `subtask_drop` stands what
the host checks: whether the last state was delivered, and whether the handle is in
a waitable set. -/
inductive Effect where
  | settle (rejected : Bool)
  | dropResult
  | cancel (delivered : Bool)
  | drop (joined : Bool) (delivered : Bool)
deriving DecidableEq

/-- What a suspended coroutine waits for. -/
inductive Waits where
  | start
  | subtask (w : CallId)
  | other
deriving DecidableEq

/-- A call and its subtask. At the host the subtask is in `status`; `pending` is set
while the guest was not told, `delivered` when it was told the last one. `event` is
that of the subscriber, and `told` are the states that the call looked at. -/
structure Call where
  handle : Nat
  coro : CoroId
  lane : Lane
  status : SubTaskState
  pending : Bool
  delivered : Bool
  joined : Bool
  dropped : Bool
  event : Option SubTaskState
  cleaned : Bool
  told : List SubTaskState
  effects : List Effect
  ended : Option Outcome

/-- The subscribers of each component task, by handle. -/
structure State where
  sched : Scheduler Waits
  subscribers : Lane → Nat → Option CallId
  call : CallId → Call
  calls : CallId

namespace Call

/-- `settle_arguments`. -/
def settleArguments (st : SubTaskState) (c : Call) : Call :=
  let c := { c with told := c.told ++ [st] }
  if !c.cleaned && st != .Starting then
    { c with cleaned := true, effects := c.effects ++ [.settle (st == .Cancelled_before_started)] }
  else c

/-- `task.cancel()`, with the answer of the host. -/
def cancel (reply : SubTaskState) (c : Call) : Call :=
  { c with
    effects := c.effects ++ [.cancel c.delivered]
    status := reply
    pending := false
    delivered := true }

def waitableJoin (joined : Bool) (c : Call) : Call := { c with joined := joined }

def forget (c : Call) : Call := { c with event := none }

/-- The subscriber gets an event. -/
def receive (st : SubTaskState) (c : Call) : Call := { c with event := some st }

/-- The host has told the state, and the handle is taken out of the set. -/
def report (c : Call) : Call :=
  { c with
    pending := false
    delivered := c.status.terminal
    joined := false }

def dropResult (c : Call) : Call := { c with effects := c.effects ++ [.dropResult] }

/-- `defer subtask_drop(task.handle)`, when the call ends. -/
def leave (outcome : Outcome) (c : Call) : Call :=
  { c with
    effects := c.effects ++ [.drop c.joined c.delivered]
    dropped := true
    ended := some outcome }

end Call

namespace State

variable (s : State)

def update (w : CallId) (f : Call → Call) : State :=
  { s with call := Function.update s.call w (f (s.call w)) }

/-- The entry of a handle in the map of its task is set or removed. -/
def subscribe (lane : Lane) (handle : Nat) (entry : Option CallId) : State :=
  { s with
    subscribers := Function.update s.subscribers lane (Function.update (s.subscribers lane) handle entry) }

/-- `detach_waitable`. -/
def detach (w : CallId) : State :=
  (s.subscribe (s.call w).lane (s.call w).handle none).update w (Call.waitableJoin false)

/-- How the last state ends a call that nobody cancels. -/
def outcome : SubTaskState → Option Outcome
  | .Returned => some .returned
  | .Cancelled_before_started => some (.subTaskCancelled true)
  | .Cancelled_before_returned => some (.subTaskCancelled false)
  | .Starting | .Started => none

/-- How the last state ends a call that is cancelled: a result is dropped. -/
def abandon (w : CallId) : SubTaskState → Option State
  | .Returned => some (((s.update w Call.dropResult).detach w).update w (Call.leave .cancelled))
  | .Cancelled_before_started | .Cancelled_before_returned =>
    some ((s.detach w).update w (Call.leave .cancelled))
  | .Starting | .Started => none

/-- A subtask is cancelled, which the host answers with the last state. -/
def requestCancel (w : CallId) (reply : SubTaskState) : Except String State :=
  let s := s.update w (Call.cancel reply)
  let s := s.update w (Call.settleArguments reply)
  match s.abandon w reply with
  | some s => .ok s
  | none => .error "panic"

/-- What is left to do when the handle of a cancelled call is in no set: the subtask is
cancelled, unless its last state is already there. -/
def abort (w : CallId) (reply : SubTaskState) : Except String State :=
  match (s.call w).event with
  | some st =>
    let s := s.update w (Call.settleArguments st)
    match s.abandon w st with
    | some s => .ok s
    | none => (s.update w Call.forget).requestCancel w reply
  | none => s.requestCancel w reply

/-- Where `suspend` raises. -/
def cancelled (w : CallId) (reply : SubTaskState) : Except String State := (s.detach w).abort w reply

/-- The beginning of a turn of the loop, up to its suspension. -/
def await (c : CoroId) (w : CallId) (reply : SubTaskState) : Except String State :=
  match s.subscribers (s.call w).lane (s.call w).handle with
  | some _ => .error "guard failed"
  | none =>
    let s := s.subscribe (s.call w).lane (s.call w).handle (some w)
    let s := s.update w (Call.waitableJoin true)
    if (s.sched.coros c).interrupted then s.cancelled w reply
    else .ok { s with sched := s.sched.suspend c (.subtask w) }

/-- The rest of a turn: the call ends with a last state, and waits on otherwise. -/
def consume (c : CoroId) (w : CallId) (reply : SubTaskState) : Except String State :=
  match (s.call w).event with
  | some st =>
    let s := s.update w (Call.settleArguments st)
    match outcome st with
    | some o => .ok ((s.detach w).update w (Call.leave o))
    | none => (s.update w Call.forget).await c w reply
  | none => s.await c w reply

/-- Where `suspend` returned. -/
def resumed (c : CoroId) (w : CallId) (reply : SubTaskState) : Except String State :=
  (s.subscribe (s.call w).lane (s.call w).handle none).consume c w reply

/-- `suspend_for_subtask`, up to its first suspension. -/
def suspendForSubtask (c : CoroId) (handle : Nat) (st reply : SubTaskState) : Except String State :=
  let w := s.calls
  let s : State := { s with
    calls := s.calls + 1
    call := Function.update s.call w
      ⟨handle, c, (s.sched.coros c).lane, st, false, st.terminal, false, false, none, false, [], [], none⟩ }
  let s := s.update w (Call.settleArguments st)
  match handle, outcome st with
  | 0, some o => .ok (s.update w fun c => { c with ended := some o })
  | 0, none => .error "panic"
  | _ + 1, some o => .ok (s.update w (Call.leave o))
  | _ + 1, none => s.await c w reply

/-- One turn of `reschedule`. -/
def resume (lane : Lane) (reply : SubTaskState) : Except String State :=
  match s.sched.runLater lane with
  | [] => .ok s
  | c :: _ =>
    let s' : State := { s with sched := s.sched.reschedule lane }
    match (s.sched.coros c).state with
    | .suspend (.subtask w) =>
      if (s'.sched.coros c).interrupted then s'.cancelled w reply else s'.resumed c w reply
    | .suspend .start => .ok { s' with sched := s'.sched.shield c false }
    | _ => .ok s'

/-- `notify_subscriber`: an event of the subtask of `w`. -/
def notifySubscriber (w : CallId) : Except String State :=
  match s.subscribers (s.call w).lane (s.call w).handle with
  | none => .error "guard failed"
  | some u =>
    let coro := (s.call u).coro
    let s := (s.update u (Call.receive (s.call w).status)).update w Call.report
    .ok { s with sched := s.sched.wake coro }

end State

/-! ## Runs -/

/-- What coroutines and the host do. The host moves a subtask on, tells its state, and
answers `reply` where a step cancels one. -/
inductive Event where
  | spawn (lane : Lane)
  | resume (lane : Lane) (reply : SubTaskState)
  | call (handle : Nat) (st reply : SubTaskState)
  | progress (w : CallId) (st : SubTaskState)
  | deliver (w : CallId)
  | cancel (c : CoroId)
  | shield (shielded : Bool)
  | park
  | unpark (c : CoroId)
  | finish (failed : Bool)

/-- The host answers a cancellation with a last state that may come after `st`. -/
def SubTaskState.answers (st reply : SubTaskState) : Prop := reply.terminal = true ∧ st.leads reply = true

namespace State

variable (s : State)

/-- The coroutine that runs does something to the scheduler. -/
def running (f : CoroId → Scheduler Waits) : State :=
  match s.sched.currCoro with
  | some c => { s with sched := f c }
  | none => s

def exec : Event → Except String State
  | .spawn lane => .ok { s with sched := s.sched.spawnOwned lane .start }
  | .resume lane reply => s.resume lane reply
  | .call handle st reply =>
    match s.sched.currCoro with
    | some c => s.suspendForSubtask c handle st reply
    | none => .error "called `unwrap` on a `None` value"
  | .progress w st => .ok (s.update w fun c => { c with status := st, pending := true })
  | .deliver w => s.notifySubscriber w
  | .cancel c => .ok { s with sched := s.sched.cancel c }
  | .shield shielded => .ok (s.running fun c => s.sched.shield c shielded)
  | .park => .ok (s.running fun c =>
    if (s.sched.coros c).interrupted then s.sched else s.sched.suspend c .other)
  | .unpark c => .ok { s with sched := s.sched.wake c }
  | .finish failed => .ok (s.running fun c => s.sched.finish c (if failed then .fail else .done))

/-- A call that returns no handle has ended, and a handle is not that of another
subtask. States follow each other as they may, and only a subtask in a set has events. -/
def allowed : Event → Prop
  | .resume lane reply => s.sched.currCoro = none ∧
      ∀ c w, (s.sched.runLater lane).head? = some c → (s.sched.coros c).state = .suspend (.subtask w) →
        (s.call w).status.answers reply
  | .call handle st reply => s.sched.currCoro.isSome = true ∧ st.answers reply ∧
      (handle = 0 → st.terminal = true) ∧
      (handle ≠ 0 → ∀ w < s.calls, (s.call w).dropped = false → (s.call w).handle ≠ handle)
  | .progress w st => w < s.calls ∧ (s.call w).handle ≠ 0 ∧ (s.call w).dropped = false ∧
      (s.call w).status.leads st = true ∧ st ≠ (s.call w).status
  | .deliver w => s.sched.currCoro = none ∧ w < s.calls ∧ (s.call w).joined = true ∧
      (s.call w).pending = true
  | .shield _ | .park | .finish _ => s.sched.currCoro.isSome = true
  | .unpark c => c < s.sched.coroId
  | .spawn _ | .cancel _ => True

/-- No call was made. -/
def fresh : State where
  sched := .empty
  subscribers _ _ := none
  call _ := ⟨0, 0, 0, .Starting, false, false, false, false, none, false, [], [], none⟩
  calls := 0

end State

/-- Every run of coroutines that call imports asynchronously. -/
def system : System State Event String where
  init s := s = State.fresh
  allowed := State.allowed
  exec := State.exec

/-! ## The protocol of one call -/

def Effect.settled : Effect → Option Bool
  | .settle rejected => some rejected
  | _ => none

def Effect.isDrop : Effect → Bool
  | .drop _ _ => true
  | _ => false

def Effect.isCancel : Effect → Bool
  | .cancel _ => true
  | _ => false

/-- What the generated code relies on. -/
structure Call.Protocol (c : Call) : Prop where
  /-- The arguments are settled once, with the first state other than `Starting`. -/
  settles : c.effects.filterMap Effect.settled =
    ((c.told.find? (· != .Starting)).map (· == .Cancelled_before_started)).toList
  /-- They are rejected exactly where the callee never took them. -/
  flag : ∀ rejected, Effect.settle rejected ∈ c.effects →
    (rejected = true ↔ c.status = .Cancelled_before_started)
  /-- When the call has ended it has seen the last state. -/
  ended : c.ended ≠ none → c.status ∈ c.told ∧ c.status.terminal = true
  /-- A result is dropped once, where the callee returned to a call that is cancelled. -/
  results : c.effects.count .dropResult = if c.ended = some .cancelled ∧ c.status = .Returned then 1 else 0
  /-- A handle is dropped once, at the end, in no set and after its last state. -/
  drops : c.effects.filter Effect.isDrop =
    if c.ended ≠ none ∧ c.handle ≠ 0 then [.drop false true] else []
  /-- A subtask is cancelled at most once, and not after its last state was delivered. -/
  cancels : c.effects.countP Effect.isCancel ≤ 1 ∧ Effect.cancel true ∉ c.effects

/-- What holds of a call at any moment. -/
structure Call.Ledger (c : Call) : Prop where
  told : ∀ st ∈ c.told, st.leads c.status = true
  settles : c.effects.filterMap Effect.settled =
    ((c.told.find? (· != .Starting)).map (· == .Cancelled_before_started)).toList
  cleaned : c.cleaned = c.told.any (· != .Starting)

/-- A call that has done nothing but settle its arguments. -/
def Call.Quiet (c : Call) : Prop := ∀ e ∈ c.effects, ∃ rejected, e = .settle rejected

/-- A call that goes on. -/
structure Call.Open (c : Call) : Prop where
  ended : c.ended = none
  dropped : c.dropped = false
  handle : c.handle ≠ 0
  quiet : c.Quiet

/-- A call that has ended. -/
structure Call.Ended (c : Call) : Prop where
  ended : c.ended ≠ none
  dropped : c.handle ≠ 0 → c.dropped = true
  joined : c.joined = false
  status : c.status ∈ c.told ∧ c.status.terminal = true
  results : c.effects.count .dropResult = if c.ended = some .cancelled ∧ c.status = .Returned then 1 else 0
  drops : c.effects.filter Effect.isDrop = if c.handle ≠ 0 then [.drop false true] else []
  cancels : c.effects.countP Effect.isCancel ≤ 1 ∧ Effect.cancel true ∉ c.effects

namespace SubTaskState

theorem leads_refl (st : SubTaskState) : st.leads st = true := by cases st <;> rfl

theorem leads_trans {a b c : SubTaskState} (hab : a.leads b = true) (hbc : b.leads c = true) :
    a.leads c = true := by
  revert hab hbc
  cases a <;> cases b <;> cases c <;> decide

/-- Nothing comes after a last state. -/
theorem leads_terminal {a b : SubTaskState} (ha : a.terminal = true) (hab : a.leads b = true) : b = a := by
  revert ha hab
  cases a <;> cases b <;> decide

/-- A subtask that has started took its arguments. -/
theorem leads_started {a b : SubTaskState} (ha : a ≠ .Starting) (hab : a.leads b = true) :
    a = .Cancelled_before_started ↔ b = .Cancelled_before_started := by
  revert ha hab
  cases a <;> cases b <;> decide

end SubTaskState

namespace Call

variable {c : Call} {st : SubTaskState}

@[simp] theorem settleArguments_told : (c.settleArguments st).told = c.told ++ [st] := by
  rw [settleArguments]; dsimp only; split <;> rfl

@[simp] theorem settleArguments_status : (c.settleArguments st).status = c.status := by
  rw [settleArguments]; dsimp only; split <;> rfl

@[simp] theorem settleArguments_handle : (c.settleArguments st).handle = c.handle := by
  rw [settleArguments]; dsimp only; split <;> rfl

@[simp] theorem settleArguments_coro : (c.settleArguments st).coro = c.coro := by
  rw [settleArguments]; dsimp only; split <;> rfl

@[simp] theorem settleArguments_dropped : (c.settleArguments st).dropped = c.dropped := by
  rw [settleArguments]; dsimp only; split <;> rfl

@[simp] theorem settleArguments_delivered : (c.settleArguments st).delivered = c.delivered := by
  rw [settleArguments]; dsimp only; split <;> rfl

@[simp] theorem settleArguments_joined : (c.settleArguments st).joined = c.joined := by
  rw [settleArguments]; dsimp only; split <;> rfl

@[simp] theorem settleArguments_event : (c.settleArguments st).event = c.event := by
  rw [settleArguments]; dsimp only; split <;> rfl

@[simp] theorem settleArguments_ended : (c.settleArguments st).ended = c.ended := by
  rw [settleArguments]; dsimp only; split <;> rfl

theorem settleArguments_effects (c : Call) (st : SubTaskState) : (c.settleArguments st).effects = c.effects ∨
    ∃ rejected, (c.settleArguments st).effects = c.effects ++ [Effect.settle rejected] := by
  rw [settleArguments]
  dsimp only
  split
  · exact Or.inr ⟨_, rfl⟩
  · exact Or.inl rfl

theorem Ledger.settle (h : c.Ledger) (hst : st.leads c.status = true) : (c.settleArguments st).Ledger := by
  have htold : ∀ st' ∈ c.told ++ [st], st'.leads c.status = true := fun st' hmem => by
    rcases List.mem_append.mp hmem with hmem | hmem
    · exact h.told st' hmem
    · rw [List.mem_singleton.mp hmem]
      exact hst
  have hsettles := h.settles
  have hcleaned := h.cleaned
  rw [settleArguments]
  dsimp only
  split
  · rename_i hfirst
    obtain ⟨hnot, hne⟩ := Bool.and_eq_true_iff.mp hfirst
    -- nothing else than `Starting` was seen so far
    have hnone : c.told.find? (· != .Starting) = none := by
      rw [Bool.not_eq_true', hcleaned, List.any_eq_false] at hnot
      exact List.find?_eq_none.mpr hnot
    refine ⟨htold, ?_, ?_⟩
    · rw [hnone] at hsettles
      rw [List.filterMap_append, hsettles, List.find?_append, hnone, Option.none_or, List.find?_singleton,
        if_pos hne]
      rfl
    · rw [List.any_append, List.any_cons, List.any_nil, Bool.or_false, hne, Bool.or_true]
  · rename_i hnot
    rw [Bool.and_eq_true_iff, not_and] at hnot
    refine ⟨htold, ?_, ?_⟩
    · rw [List.find?_append]
      cases hfind : c.told.find? (· != .Starting) with
      | some st' =>
        rw [hfind] at hsettles
        exact hsettles
      | none =>
        have hcleaned' : c.cleaned = false := by
          rw [hcleaned, List.any_eq_false]
          exact List.find?_eq_none.mp hfind
        rw [Option.none_or, List.find?_singleton, if_neg (hnot (by rw [hcleaned']; rfl))]
        rw [hfind] at hsettles
        exact hsettles
    · rw [List.any_append, List.any_cons, List.any_nil, Bool.or_false]
      cases hne : (st != .Starting) with
      | false => rw [Bool.or_false]; exact hcleaned
      | true =>
        rw [Bool.or_true]
        cases hc : c.cleaned with
        | true => rfl
        | false =>
          rw [hc] at hnot
          exact absurd hne (hnot rfl)

/-- The host moves on. -/
theorem Ledger.progress (h : c.Ledger) (hst : c.status.leads st = true) {pending : Bool} :
    ({ c with status := st, pending := pending } : Call).Ledger :=
  { h with told := fun st' hmem => SubTaskState.leads_trans (h.told st' hmem) hst }

theorem Quiet.settle (h : c.Quiet) (st : SubTaskState) : (c.settleArguments st).Quiet := fun e he => by
  rcases c.settleArguments_effects st with heff | ⟨rejected, heff⟩
  · exact h e (heff ▸ he)
  · rw [heff] at he
    rcases List.mem_append.mp he with he | he
    · exact h e he
    · exact ⟨rejected, List.mem_singleton.mp he⟩

theorem Open.settle (h : c.Open) (st : SubTaskState) : (c.settleArguments st).Open := by
  refine ⟨?_, ?_, ?_, h.quiet.settle st⟩
  · rw [settleArguments_ended]; exact h.ended
  · rw [settleArguments_dropped]; exact h.dropped
  · rw [settleArguments_handle]; exact h.handle

/-! ### What such a call has not done -/

theorem Quiet.no_results (h : c.Quiet) : c.effects.count .dropResult = 0 :=
  List.count_eq_zero.mpr fun hmem => by
    obtain ⟨r, hr⟩ := h _ hmem
    cases hr

theorem Quiet.no_drops (h : c.Quiet) : c.effects.filter Effect.isDrop = [] :=
  List.filter_eq_nil_iff.mpr fun e he => by
    obtain ⟨r, rfl⟩ := h e he
    nofun

theorem Quiet.no_cancels (h : c.Quiet) : c.effects.countP Effect.isCancel = 0 :=
  List.countP_eq_zero.mpr fun e he => by
    obtain ⟨r, rfl⟩ := h e he
    nofun

theorem Quiet.not_cancelled (h : c.Quiet) (b : Bool) : Effect.cancel b ∉ c.effects := fun hmem => by
  obtain ⟨r, hr⟩ := h _ hmem
  cases hr

/-- An open call keeps the protocol so far. -/
theorem Ledger.flag (h : c.Ledger) {rejected : Bool} (hmem : Effect.settle rejected ∈ c.effects) :
    rejected = true ↔ c.status = .Cancelled_before_started := by
  have hin : rejected ∈ c.effects.filterMap Effect.settled := List.mem_filterMap.mpr ⟨_, hmem, rfl⟩
  rw [h.settles, Option.mem_toList, Option.map_eq_some_iff] at hin
  obtain ⟨st', hfind, rfl⟩ := hin
  rw [beq_iff_eq]
  refine SubTaskState.leads_started (fun heq => ?_) (h.told st' (List.mem_of_find?_eq_some hfind))
  have hne := List.find?_some hfind
  rw [heq] at hne
  cases hne

theorem Open.protocol (h : c.Open) (hl : c.Ledger) : c.Protocol where
  settles := hl.settles
  flag _ := hl.flag
  ended hne := absurd h.ended hne
  results := by
    rw [h.quiet.no_results, h.ended, if_neg]
    exact fun hand => nomatch hand.1
  drops := by
    rw [h.quiet.no_drops, if_neg]
    exact fun hand => hand.1 h.ended
  cancels := ⟨by rw [h.quiet.no_cancels]; exact Nat.zero_le _, h.quiet.not_cancelled true⟩

theorem Ended.protocol (h : c.Ended) (hl : c.Ledger) : c.Protocol where
  settles := hl.settles
  flag _ := hl.flag
  ended _ := h.status
  results := h.results
  drops := by
    rw [h.drops]
    exact if_congr (and_iff_right h.ended).symm rfl rfl
  cancels := h.cancels

end Call

end Subtask

end Moonbit

end WitBindgen
