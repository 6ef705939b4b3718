import Mathlib.Data.Finset.Card
import WitBindgen.Library.Runs
import WitBindgen.Moonbit.Coroutine

/-!
# Task groups

`async/task_group.mbt`: `with_task_group` spawns a coroutine for its body and waits
until every child of the group has ended. The last child wakes the coroutine that
waits, which must find the group empty. Coroutines act on groups one at a time; any
of them may spawn into a group, end it early, or be cancelled, and the rest of the
runtime may wake a coroutine for something else.
-/

namespace WitBindgen

namespace Moonbit

namespace TaskGroup

abbrev GroupId := Nat

/-- What a coroutine is suspended for: its start, the end of a group, the end of a
group under `protect_from_cancel`, or anything else. -/
inductive Waits where
  | start
  | group (g : GroupId)
  | groupShielded (g : GroupId)
  | other
deriving DecidableEq

/-- `TaskGroupState`, without the error of `Fail`. -/
inductive GroupState where
  | done
  | fail
  | running
deriving DecidableEq

inductive Outcome (X : Type) where
  | returned (value : X)
  | raised

/-- Where the call of `with_task_group` is: before or at its wait, in the defers of
the group, or over. -/
inductive Phase (X : Type) where
  | waiting
  | defers
  | left (outcome : Outcome X)

/-- A group. `offered` is what its body returned or `return_immediately` was given. -/
structure Group (X : Type) where
  children : List CoroId
  parent : CoroId
  waiting : Int
  state : GroupState
  result : Option X
  groupDefer : Nat
  phase : Phase X
  offered : List X

/-- How a coroutine was spawned into a group. The body of `with_task_group` is a
child too, one that nobody else has the handle of. -/
structure Child where
  group : GroupId
  noWait : Bool
  allowFailure : Bool
  isBody : Bool
deriving DecidableEq

inductive Panic where
  /-- A spawn into, or a defer for, a group that has terminated. -/
  | terminated
  /-- `guard tg.children.is_empty()` -/
  | childrenLeft
  /-- `tg.result.unwrap()` -/
  | noResult
  | stillRunning
deriving DecidableEq

/-- How the function of a coroutine ends. Only a body has a value for its group. -/
inductive Ending (X : Type) where
  | body (value : X)
  | normal
  | failed
  | cancelled

/-- The coroutines, the groups, what each coroutine was spawned for, and for each the
calls of `with_task_group` in whose defers it is, innermost first. -/
structure Tasks (X : Type) where
  sched : Scheduler Waits
  groups : GroupId → Group X
  groupId : GroupId
  child : CoroId → Option Child
  calls : CoroId → List GroupId
  panicked : Option Panic

variable {X : Type}

/-- `for child in children { child.cancel() }` -/
def cancelAll (children : List CoroId) (s : Scheduler Waits) : Scheduler Waits :=
  children.foldl (fun s c => s.cancel c) s

namespace Tasks

def empty : Tasks X where
  sched := .empty
  groups _ := ⟨[], 0, 0, .done, none, 0, .waiting, []⟩
  groupId := 0
  child _ := none
  calls _ := []
  panicked := none

variable (s : Tasks X)

def panic (p : Panic) : Tasks X := { s with panicked := some p }

def setGroup (g : GroupId) (x : Group X) : Tasks X :=
  { s with groups := Function.update s.groups g x }

/-- `TaskGroup::spawn_coroutine`, called by `c`. -/
def spawnCoroutine (c : CoroId) (x : Child) : Tasks X :=
  let tg := s.groups x.group
  if tg.state = .running ∨ tg.children ≠ [] then
    let coro := s.sched.coroId
    let sched := s.sched.spawnOwned (s.sched.coros c).lane .start
    { s.setGroup x.group { tg with
        children := tg.children ++ [coro]
        waiting := if x.noWait then tg.waiting else tg.waiting + 1 } with
      sched := if tg.state = .running then sched else sched.cancel coro
      child := Function.update s.child coro (some x) }
  else s.panic .terminated

/-- The end of `with_task_group`: the next defer of the group, or its outcome. -/
def nextDefer (c : CoroId) (g : GroupId) : Tasks X :=
  let tg := s.groups g
  match tg.groupDefer with
  | n + 1 => s.setGroup g { tg with groupDefer := n }
  | 0 =>
    let s := { s with calls := Function.update s.calls c (s.calls c).tail }
    match tg.state with
    | .done =>
      match tg.result with
      | some value => s.setGroup g { tg with phase := .left (.returned value) }
      | none => s.panic .noResult
    | .fail => s.setGroup g { tg with phase := .left .raised }
    | .running => s.panic .stillRunning

/-- `with_task_group` goes on after its wait. -/
def waited (c : CoroId) (g : GroupId) : Tasks X :=
  if (s.groups g).children = [] then
    ({ s.setGroup g { s.groups g with phase := .defers } with
      calls := Function.update s.calls c (g :: s.calls c) }).nextDefer c g
  else s.panic .childrenLeft

/-- The `catch` around the first `suspend` of `with_task_group`. -/
def interrupted (c : CoroId) (g : GroupId) : Tasks X :=
  let tg := s.groups g
  let s := s.setGroup g { tg with state := if tg.state = .running then .fail else tg.state }
  if tg.children = [] then s.waited c g
  else { s with sched := ((cancelAll tg.children s.sched).shield c true).suspend c (.groupShielded g) }

/-- `with_task_group`, called by `c`, up to its wait. -/
def withTaskGroup (c : CoroId) : Tasks X :=
  let g := s.groupId
  let s := { s.setGroup g ⟨[], c, 0, .running, none, 0, .waiting, []⟩ with groupId := g + 1 }
  let s := s.spawnCoroutine c ⟨g, false, false, true⟩
  if (s.sched.coros c).interrupted then s.interrupted c g
  else { s with sched := s.sched.suspend c (.group g) }

/-- The group fails with the error of a child. -/
def failGroup (g : GroupId) : Tasks X :=
  let tg := s.groups g
  if tg.state = .running then
    { s.setGroup g { tg with state := .fail } with sched := cancelAll tg.children s.sched }
  else s.setGroup g { tg with state := .fail }

/-- What `f` gives to `worker` and to the function around the body. -/
def caught (c : CoroId) (x : Child) : Ending X → Tasks X
  | .body value =>
    let tg := s.groups x.group
    s.setGroup x.group { tg with
      result := if tg.result.isNone then some value else tg.result
      offered := tg.offered ++ [value] }
  | .normal => s
  | .failed => if x.allowFailure then s else s.failGroup x.group
  | .cancelled => if x.allowFailure || (s.sched.coros c).interrupted then s else s.failGroup x.group

/-- The `defer` of `worker`. -/
def terminated (c : CoroId) (x : Child) : Tasks X :=
  let tg := s.groups x.group
  let children := tg.children.erase c
  let waiting := if x.noWait then tg.waiting else tg.waiting - 1
  let last := !x.noWait && waiting = 0 && tg.state = .running
  let sched := if last then cancelAll children s.sched else s.sched
  { s.setGroup x.group { tg with children, waiting, state := if last then .done else tg.state } with
    sched := if children = [] then sched.wake tg.parent else sched }

def Ending.state : Ending X → CoroState Waits
  | .body _ | .normal => .done
  | .failed | .cancelled => .fail

/-- The running coroutine ends. -/
def finish (c : CoroId) (e : Ending X) : Tasks X :=
  let s := match s.child c with
    | none => s
    | some x => (s.caught c x e).terminated c x
  { s with sched := s.sched.finish c (Ending.state e) }

/-- `TaskGroup::return_immediately`, up to its check for a cancellation. -/
def returnImmediately (g : GroupId) (value : X) : Tasks X :=
  let tg := s.groups g
  let s := s.setGroup g { tg with
    result := if tg.result.isNone then some value else tg.result
    offered := tg.offered ++ [value]
    state := if tg.state = .running then .done else tg.state }
  if tg.state = .running then { s with sched := cancelAll tg.children s.sched } else s

/-- `TaskGroup::add_defer` -/
def addDefer (g : GroupId) : Tasks X :=
  let tg := s.groups g
  if tg.state = .running then s.setGroup g { tg with groupDefer := tg.groupDefer + 1 }
  else s.panic .terminated

/-- A defer of the innermost call ends. -/
def endDefer (c : CoroId) (failed : Bool) : Tasks X :=
  match s.calls c with
  | [] => s
  | g :: _ =>
    let tg := s.groups g
    (s.setGroup g { tg with state := if failed && tg.state = .done then .fail else tg.state }).nextDefer c g

/-- One turn of the loop of `reschedule`, with what the coroutine then does. -/
def turn (lane : Lane) : Tasks X :=
  match s.sched.runLater lane with
  | [] => s
  | c :: _ =>
    let sched := s.sched.reschedule lane
    match (s.sched.coros c).state with
    | .suspend .start => { s with sched := sched.shield c false }
    | .suspend (.group g) =>
      let s := { s with sched }
      if (s.sched.coros c).interrupted then s.interrupted c g else s.waited c g
    | .suspend (.groupShielded g) => { s with sched := sched.shield c false }.waited c g
    | _ => { s with sched }

end Tasks

/-! ## The system -/

/-- What the running coroutine does. -/
inductive Act (X : Type) where
  /-- It suspends for something else than a group. -/
  | suspend
  | shield (shielded : Bool)
  | withTaskGroup
  | spawnCoroutine (g : GroupId) (noWait allowFailure : Bool)
  | returnImmediately (g : GroupId) (value : X)
  | addDefer (g : GroupId)
  | endDefer (failed : Bool)
  | finish (e : Ending X)

inductive Event (X : Type) where
  /-- A coroutine outside of groups is spawned. -/
  | spawn (lane : Lane)
  | turn (lane : Lane)
  /-- Another part of the runtime wakes a coroutine. -/
  | wake (c : CoroId)
  | cancel (c : CoroId)
  | act (a : Act X)

namespace Tasks

variable (s : Tasks X)

def act (c : CoroId) : Act X → Tasks X
  | .suspend => if (s.sched.coros c).interrupted then s else { s with sched := s.sched.suspend c .other }
  | .shield shielded => { s with sched := s.sched.shield c shielded }
  | .withTaskGroup => s.withTaskGroup c
  | .spawnCoroutine g noWait allowFailure => s.spawnCoroutine c ⟨g, noWait, allowFailure, false⟩
  | .returnImmediately g value => s.returnImmediately g value
  | .addDefer g => s.addDefer g
  | .endDefer failed => s.endDefer c failed
  | .finish e => s.finish c e

def exec : Event X → Tasks X
  | .spawn lane => { s with sched := s.sched.spawnOwned lane .start }
  | .turn lane => s.turn lane
  | .wake c => { s with sched := s.sched.wake c }
  | .cancel c => { s with sched := s.sched.cancel c }
  | .act a => match s.sched.currCoro with
    | none => s
    | some c => s.act c a

/-- A coroutine runs what it was spawned for: the body of a group ends with a value
or an error, and a call of `with_task_group` has to end before the coroutine does. -/
def Ends (c : CoroId) (e : Ending X) : Prop :=
  s.calls c = [] ∧ match e with
    | .body _ => ∃ x, s.child c = some x ∧ x.isBody = true
    | .normal => ∀ x, s.child c = some x → x.isBody = false
    | _ => True

/-- Groups are known to who uses them. -/
def MayAct (c : CoroId) : Act X → Prop
  | .spawnCoroutine g _ _ | .returnImmediately g _ | .addDefer g => g < s.groupId
  | .finish e => s.Ends c e
  | _ => True

/-- Nothing happens after a panic, and turns are taken while nothing runs. The coroutine
of a body is in nobody's hands but its group's. -/
def Allowed (e : Event X) : Prop :=
  s.panicked = none ∧ match e with
    | .spawn _ => True
    | .turn _ => s.sched.currCoro = none
    | .wake c => c < s.sched.coroId
    | .cancel c => ∀ x, s.child c = some x → x.isBody = false
    | .act a => ∃ c, s.sched.currCoro = some c ∧ s.MayAct c a

/-- No call of `with_task_group` starts to wait while its coroutine has an entry in
the run queue, and nothing else wakes a coroutine that waits for a group. -/
def Clean : Event X → Prop
  | .wake c => ∀ g, (s.sched.coros c).state ≠ .suspend (.group g) ∧
      (s.sched.coros c).state ≠ .suspend (.groupShielded g)
  | .act .withTaskGroup => ∀ c, s.sched.currCoro = some c → (s.sched.coros c).ready = false
  | _ => True

end Tasks

/-- Every run of coroutines and their groups. -/
def tasks (X : Type) : System (Tasks X) (Event X) Empty where
  init s := s = .empty
  allowed := Tasks.Allowed
  exec s e := .ok (s.exec e)

/-- The runs whose steps are all clean. -/
def cleanTasks (X : Type) : System (Tasks X) (Event X) Empty where
  init s := s = .empty
  allowed s e := s.Allowed e ∧ s.Clean e
  exec s e := .ok (s.exec e)

/-! ## What groups are for -/

def Ended (s : Scheduler Waits) (c : CoroId) : Prop := (s.coros c).state = .done ∨ (s.coros c).state = .fail

/-- The coroutine waits in `with_task_group`. -/
def WaitsFor (s : Scheduler Waits) (g : GroupId) (c : CoroId) : Prop :=
  (s.coros c).state = .suspend (.group g) ∨ (s.coros c).state = .suspend (.groupShielded g)

namespace Tasks

variable (s : Tasks X)

/-- A child of a group that has not ended. -/
def Alive (g : GroupId) (c : CoroId) (x : Child) : Prop :=
  s.child c = some x ∧ x.group = g ∧ ¬Ended s.sched c

/-- Structured concurrency, of a state. -/
structure Structured : Prop where
  /-- None of the checks of `with_task_group` fails. -/
  calm : ∀ p, s.panicked = some p → p = .terminated
  ended : ∀ g outcome, (s.groups g).phase = .left outcome → ∀ c x, ¬s.Alive g c x
  /-- `waiting` counts the children that the group waits for. -/
  waiting : ∀ g < s.groupId, ∃ children : Finset CoroId, (s.groups g).waiting = children.card ∧
    ∀ c, c ∈ children ↔ ∃ x, s.Alive g c x ∧ x.noWait = false
  /-- A waiting coroutine goes on when no child is left, or when it was cancelled. -/
  resumed : ∀ g c, WaitsFor s.sched g c → (s.sched.coros c).ready = true →
    (∀ d x, ¬s.Alive g d x) ∨ (s.sched.coros c).interrupted = true
  value : ∀ g value, (s.groups g).phase = .left (.returned value) → value ∈ (s.groups g).offered
  settled : ∀ g outcome, (s.groups g).phase = .left outcome → (s.groups g).state ≠ .running

/-- And of a step: a coroutine that waits for a group becomes ready where the last
child of the group ends, or the coroutine itself is cancelled. -/
def Resumes (s' : Tasks X) : Prop :=
  ∀ g c, WaitsFor s.sched g c → WaitsFor s'.sched g c → (s.sched.coros c).ready = false →
    (s'.sched.coros c).ready = true →
      (∃ d x, s.Alive g d x) ∧ (∀ d x, ¬s'.Alive g d x) ∨
      (s.sched.coros c).interrupted = false ∧ (s'.sched.coros c).interrupted = true

end Tasks

end TaskGroup

end Moonbit

end WitBindgen
