import WitBindgen.Library.Outcome
import WitBindgen.Moonbit.Semaphore

/-!
# Promises

`async/promise.mbt`: a cell for one value, with a `Promise` that settles it and a
`Future` that is read or dropped. A `get` that comes before the settlement waits for
the one permit of a semaphore. Between the steps of the cell the scheduler does
anything to coroutines: whether the wait of a `get` ends, and whether it is raised
there that its coroutine was cancelled, is decided by the run.
-/

namespace WitBindgen

namespace Moonbit

namespace Promise

open Semaphore (CallId Waits)

inductive PromiseState (X E : Type) where
  | pending
  | completed (value : X)
  | failed (error : E)
  | closed
  | readerDropped
  | consumed

/-- The cell, with whether it has a cleanup callback. `waiting` is the call of `acquire`
in which a `get` is suspended. The lists are of the values for which `complete` answered
`true`, of those for which it answered `false`, and of those that were returned by a
`get`, passed to a cleanup callback, or dropped without one. -/
structure State (X E : Type) where
  ready : Semaphore.State
  state : PromiseState X E
  cleanup : Bool
  reading : Bool
  waiting : Option CallId
  accepted : List X
  refused : List X
  returned : List X
  cleaned : List X
  discarded : List X

variable {X E : Type}

namespace State

variable (s : State X E)

/-- The common part of `complete`, `fail` and `close`: `true` where the future accepted. -/
def settle (x : PromiseState X E) : Except String (Bool × State X E) :=
  match s.state with
  | .pending => do
      let ready ← s.ready.release
      pure (true, { s with state := x, ready := ready })
  | .readerDropped => pure (false, s)
  | _ => .error "promise already settled"

def complete (value : X) : Except String (State X E) := do
  let (accepted, s) ← s.settle (.completed value)
  pure (if accepted then { s with accepted := value :: s.accepted }
    else { s with refused := value :: s.refused })

def fail (error : E) : Except String (State X E) := Prod.snd <$> s.settle (.failed error)

def close : Except String (State X E) := Prod.snd <$> s.settle .closed

/-- `consume_promised_future`, which returns the value or raises. -/
def consume : Except String (State X E) :=
  match s.state with
  | .completed value => .ok { s with state := .consumed, returned := value :: s.returned }
  | .failed _ | .closed => .ok { s with state := .consumed }
  | .pending => .error "panic"
  | .readerDropped => .ok s
  | .consumed => .error "future already consumed"

/-- The `acquire` of a `get` raised. -/
def getFailed : State X E :=
  { s with
    reading := false
    waiting := none
    state := match s.state with
      | .pending => .readerDropped
      | state => state }

/-- `get` in coroutine `c`, up to where it waits. -/
def get (c : CoroId) : Except String (State X E) :=
  if s.reading then .error "future read already in progress"
  else
    match s.state with
    | .pending =>
      if 0 < s.ready.value then ({ s with ready := s.ready.acquire c } : State X E).consume
      else if (s.ready.sched.coros c).interrupted then
        .ok ({ s with ready := s.ready.acquire c } : State X E).getFailed
      else .ok { s with ready := s.ready.acquire c, reading := true, waiting := some s.ready.calls }
    | _ => s.consume

/-- The rest of a `get` that waited, where `suspend` returned or raised. -/
def getResumed (w : CallId) (raised : Bool) : Except String (State X E) :=
  let s' := { s with ready := s.ready.acquireResumed w raised }
  if raised && !s.ready.acquired w then .ok s'.getFailed
  else { s' with reading := false, waiting := none }.consume

/-- `drop`, and `reject` with a fallback for the cleanup callback. -/
def drop (fallback : Bool) : Except String (State X E) :=
  if s.reading then
    match s.state with
    | .pending => do
        let ready ← s.ready.release
        pure { s with state := .readerDropped, ready := ready }
    | _ => .ok s
  else
    match s.state with
    | .pending => .ok { s with state := .readerDropped }
    | .completed value =>
      if s.cleanup || fallback then
        .ok { s with state := .consumed, cleaned := value :: s.cleaned }
      else .ok { s with state := .consumed, discarded := value :: s.discarded }
    | .failed _ | .closed => .ok { s with state := .consumed }
    | .readerDropped | .consumed => .ok s

end State

inductive Event (X E : Type) where
  | complete (value : X)
  | fail (error : E)
  | close
  | get (c : CoroId)
  /-- The wait of a `get` ends. -/
  | resume (raised : Bool)
  | drop (fallback : Bool)
  /-- Coroutines run, are cancelled or finish. -/
  | schedule (sched : Scheduler Waits)

namespace State

variable (s : State X E)

def exec : Event X E → Except String (State X E)
  | .complete value => s.complete value
  | .fail error => s.fail error
  | .close => s.close
  | .get c => s.get c
  | .resume raised =>
    match s.waiting with
    | some w => s.getResumed w raised
    | none => .ok s
  | .drop fallback => s.drop fallback
  | .schedule sched => .ok { s with ready := { s.ready with sched := sched } }

/-- `Future::new`, or `Future::new_with_cleanup`. -/
def New (s : State X E) : Prop :=
  ∃ ready cleanup, Semaphore.State.New 1 0 ready ∧
    s = ⟨ready, .pending, cleanup, false, none, [], [], [], [], []⟩

/-- A value that was accepted and is neither returned nor dropped. -/
def inCell : List X :=
  match s.state with
  | .completed value => [value]
  | _ => []

end State

/-- Every interleaving of the calls on both ends. -/
def system (X E : Type) : System (State X E) (Event X E) String where
  init := State.New
  allowed _ _ := True
  exec := State.exec

/-- What a value and its reader can rely on. -/
structure OneOwner (s : State X E) : Prop where
  /-- An accepted value is in one place. -/
  owner : s.accepted = s.inCell ++ s.returned ++ s.cleaned ++ s.discarded
  once : s.accepted.length ≤ 1
  cleaned : s.cleanup = true → s.discarded = []
  /-- A waiting `get` takes the value that is there when it goes on, cancelled or not. -/
  consumed : ∀ w ∈ s.waiting, ∀ value, s.state = .completed value → ∀ raised,
    ∃ s', s.exec (.resume raised) = .ok s' ∧ s'.returned = value :: s.returned ∧ s'.inCell = []
  /-- So it does with a failure or the end of the promise. -/
  ended : ∀ w ∈ s.waiting, (∃ error, s.state = .failed error) ∨ s.state = .closed → ∀ raised,
    ∃ s', s.exec (.resume raised) = .ok s' ∧ s'.state = .consumed
  /-- A `get` that is cancelled before the settlement gives the cell up for good. -/
  cancelled : ∀ w ∈ s.waiting, s.state = .pending →
    ∃ s', s.exec (.resume true) = .ok s' ∧ s'.state = .readerDropped
  /-- Then `complete`, `fail` and `close` answer `false`, and the caller keeps the value. -/
  refused : s.state = .readerDropped → ∀ es s', (system X E).Run s es s' →
    s'.state = .readerDropped ∧ (∀ x, s'.settle x = .ok (false, s')) ∧
      ∀ value, s'.exec (.complete value) = .ok { s' with refused := value :: s'.refused }

/-! ## The queue of the semaphore -/

/-- While the cell is pending at most one `get` waits, and a settlement assigns the
permit to it. -/
structure Inv (s : State X E) : Prop where
  size : s.ready.size = 1
  reading : s.reading = s.waiting.isSome
  pending : s.state = .pending → s.ready.value = 0 ∧ s.accepted = [] ∧
    match s.waiting with
    | none => s.ready.waiters = []
    | some w => s.ready.waiters = [w] ∧ (s.ready.waiter w).coro.isSome ∧ s.ready.acquired w = false
  settled : s.state ≠ .pending → ∀ w ∈ s.waiting, s.ready.acquired w = true
  owner : s.accepted = s.inCell ++ s.returned ++ s.cleaned ++ s.discarded
  once : s.accepted.length ≤ 1
  cleaned : s.cleanup = true → s.discarded = []

variable {s s' : State X E}

/-- The one permit goes to the `get` that waits. -/
theorem Inv.release (h : Inv s) (hstate : s.state = .pending) :
    ∃ ready, s.ready.release = .ok ready ∧ ready.size = 1 ∧
      ∀ w ∈ s.waiting, ready.acquired w = true := by
  obtain ⟨hvalue, -, hqueue⟩ := h.pending hstate
  have hroom : ¬ s.ready.size ≤ s.ready.value := by
    rw [h.size, hvalue]
    omega
  rw [Semaphore.State.release, if_neg hroom]
  cases hwaiting : s.waiting with
  | none =>
    rw [hwaiting] at hqueue
    rw [hqueue]
    exact ⟨_, rfl, h.size, by simp⟩
  | some w =>
    rw [hwaiting] at hqueue
    obtain ⟨hwaiters, hcoro, -⟩ := hqueue
    obtain ⟨c, hc⟩ := Option.isSome_iff_exists.mp hcoro
    have hnext : Semaphore.State.nextWaiter s.ready.waiter s.ready.waiters = some (w, c, []) := by
      rw [hwaiters, Semaphore.State.nextWaiter, hc]
    rw [hnext]
    refine ⟨_, rfl, h.size, fun w' hw' => ?_⟩
    obtain rfl : w = w' := Option.some.inj hw'
    simp only [Semaphore.State.acquired, Function.update_self]

/-- The cell leaves `pending` with the permit assigned, and with no value or the one it
was given. -/
theorem Inv.settle (h : Inv s) (hstate : s.state = .pending) {ready : Semaphore.State}
    {x : PromiseState X E} {accepted : List X} (hsize : ready.size = 1)
    (hacquired : ∀ w ∈ s.waiting, ready.acquired w = true) (hx : x ≠ .pending)
    (hin : accepted = ({ s with state := x } : State X E).inCell) (honce : accepted.length ≤ 1) :
    Inv { s with state := x, ready := ready, accepted := accepted } where
  size := hsize
  reading := h.reading
  pending hp := absurd hp hx
  settled _ := hacquired
  owner := by
    have hnone := (h.pending hstate).2.1
    have howner := h.owner
    rw [hnone, State.inCell, hstate] at howner
    obtain ⟨hreturned, hcleaned, hdiscarded⟩ : s.returned = [] ∧ s.cleaned = [] ∧
        s.discarded = [] := by
      simpa using howner.symm
    change accepted = State.inCell _ ++ s.returned ++ s.cleaned ++ s.discarded
    rw [hreturned, hcleaned, hdiscarded, hin]
    simp [State.inCell]
  once := honce
  cleaned := h.cleaned

theorem settle_pending (hstate : s.state = .pending) {ready : Semaphore.State}
    (hready : s.ready.release = .ok ready) (x : PromiseState X E) :
    s.settle x = .ok (true, { s with state := x, ready := ready }) := by
  rw [State.settle, hstate]
  change (s.ready.release >>= _) = _
  rw [hready]
  rfl

theorem settle_readerDropped (hstate : s.state = .readerDropped) (x : PromiseState X E) :
    s.settle x = .ok (false, s) := by
  rw [State.settle, hstate]
  rfl

theorem settle_again (hpending : s.state ≠ .pending) (hdropped : s.state ≠ .readerDropped)
    (x : PromiseState X E) : s.settle x = .error "promise already settled" := by
  rw [State.settle]
  split
  · exact absurd ‹_› hpending
  · exact absurd ‹_› hdropped
  · rfl

theorem Inv.complete (h : Inv s) (value : X) :
    Ends (fun _ => True) (fun s' : State X E => Inv s') (s.complete value) := by
  rw [State.complete]
  by_cases hpending : s.state = .pending
  · obtain ⟨ready, hready, hsize, hacquired⟩ := h.release hpending
    rw [settle_pending hpending hready]
    refine h.settle hpending hsize hacquired nofun ?_ ?_
    · rw [(h.pending hpending).2.1]
      rfl
    · rw [(h.pending hpending).2.1]
      exact Nat.le_refl 1
  · by_cases hdropped : s.state = .readerDropped
    · rw [settle_readerDropped hdropped]
      exact ⟨h.size, h.reading, h.pending, h.settled, h.owner, h.once, h.cleaned⟩
    · rw [settle_again hpending hdropped]
      exact trivial

/-- `fail` and `close`. -/
theorem Inv.settleWith (h : Inv s) {x : PromiseState X E} (hx : x ≠ .pending)
    (hin : ({ s with state := x } : State X E).inCell = []) :
    Ends (fun _ => True) (fun s' : State X E => Inv s') (Prod.snd <$> s.settle x) := by
  by_cases hpending : s.state = .pending
  · obtain ⟨ready, hready, hsize, hacquired⟩ := h.release hpending
    have hnone := (h.pending hpending).2.1
    rw [settle_pending hpending hready]
    exact h.settle hpending hsize hacquired hx (hnone.trans hin.symm) h.once
  · by_cases hdropped : s.state = .readerDropped
    · rw [settle_readerDropped hdropped]
      exact h
    · rw [settle_again hpending hdropped]
      exact trivial

/-- The cell is given up, or its value goes to one place, while no `get` needs a permit. -/
theorem Inv.leave (h : Inv s) {x : PromiseState X E} {returned cleaned discarded : List X}
    (hacquired : ∀ w ∈ s.waiting, s.ready.acquired w = true) (hx : x ≠ .pending)
    (howner : s.accepted = ({ s with state := x } : State X E).inCell ++ returned ++ cleaned ++ discarded)
    (hcleaned : s.cleanup = true → discarded = []) :
    Inv { s with state := x, returned := returned, cleaned := cleaned, discarded := discarded } where
  size := h.size
  reading := h.reading
  pending hp := absurd hp hx
  settled _ := hacquired
  owner := howner
  once := h.once
  cleaned := hcleaned

theorem Inv.inCell (h : Inv s) {cell : List X} (hcell : s.inCell = cell) :
    s.accepted = cell ++ s.returned ++ s.cleaned ++ s.discarded := hcell ▸ h.owner

theorem Inv.consume (h : Inv s) (hwaiting : s.waiting = none) :
    Ends (fun _ => True) (fun s' : State X E => Inv s') s.consume := by
  have hnone : ∀ w ∈ s.waiting, s.ready.acquired w = true := by
    rw [hwaiting]
    exact nofun
  rw [State.consume]
  split
  · rename_i value hstate
    refine h.leave hnone nofun ?_ h.cleaned
    exact h.inCell (show s.inCell = [value] by rw [State.inCell, hstate])
  · rename_i error hstate
    refine h.leave hnone nofun ?_ h.cleaned
    exact h.inCell (show s.inCell = [] by rw [State.inCell, hstate])
  · rename_i hstate
    refine h.leave hnone nofun ?_ h.cleaned
    exact h.inCell (show s.inCell = [] by rw [State.inCell, hstate])
  · exact trivial
  · exact h
  · exact trivial

/-- A `get` that raised leaves nobody who waits. -/
theorem Inv.getFailed {ready : Semaphore.State} (h : Inv s) (hsize : ready.size = 1) :
    Inv ({ s with ready := ready } : State X E).getFailed where
  size := hsize
  reading := rfl
  pending hp := by
    simp only [State.getFailed] at hp
    split at hp
    · cases hp
    · exact absurd hp ‹_›
  settled _ := nofun
  owner := by
    refine h.inCell ?_
    simp only [State.inCell, State.getFailed]
    cases s.state <;> rfl
  once := h.once
  cleaned := h.cleaned

/-- Nobody waits any more, or the state was settled. -/
theorem Inv.resumed {ready : Semaphore.State} (h : Inv s) (hsize : ready.size = 1)
    (hpending : s.state ≠ .pending) :
    Inv ({ s with ready := ready, reading := false, waiting := none } : State X E) where
  size := hsize
  reading := rfl
  pending hp := absurd hp hpending
  settled _ := nofun
  owner := h.owner
  once := h.once
  cleaned := h.cleaned

theorem acquireResumed_size (w : CallId) (raised : Bool) (ready : Semaphore.State) :
    (ready.acquireResumed w raised).size = ready.size := by
  rw [Semaphore.State.acquireResumed]
  split <;> rfl

theorem Inv.getResumed (h : Inv s) {w : CallId} (raised : Bool) :
    Ends (fun _ => True) (fun s' : State X E => Inv s') (s.getResumed w raised) := by
  have hsize := (acquireResumed_size w raised s.ready).trans h.size
  rw [State.getResumed]
  dsimp only
  split
  · exact h.getFailed hsize
  · by_cases hpending : s.state = .pending
    · rw [State.consume]
      simp only [hpending]
      exact trivial
    · exact (h.resumed hsize hpending).consume rfl

theorem Inv.get (h : Inv s) (c : CoroId) :
    Ends (fun _ => True) (fun s' : State X E => Inv s') (s.get c) := by
  rw [State.get]
  split
  · exact trivial
  · rename_i hreading
    have hwaiting : s.waiting = none := by
      have hnot := h.reading
      cases hwait : s.waiting with
      | none => rfl
      | some w =>
        rw [hwait] at hnot
        exact absurd hnot hreading
    split
    · rename_i hstate
      obtain ⟨hvalue, haccepted, hqueue⟩ := h.pending hstate
      rw [hwaiting] at hqueue
      have hzero : ¬ 0 < s.ready.value := by omega
      rw [if_neg hzero]
      split
      · refine h.getFailed ?_
        rw [Semaphore.State.acquire, if_neg hzero]
        dsimp only
        split <;> exact h.size
      · rename_i hint
        have hacquire : s.ready.acquire c = { s.ready with
            calls := s.ready.calls + 1
            waiters := s.ready.waiters ++ [s.ready.calls]
            waiter := Function.update s.ready.waiter s.ready.calls ⟨false, some c⟩
            sched := s.ready.sched.suspend c (.acquire s.ready.calls) } := by
          rw [Semaphore.State.acquire, if_neg hzero]
          exact if_neg hint
        rw [hacquire]
        refine ⟨h.size, rfl, fun _ => ⟨hvalue, haccepted, ?_, ?_, ?_⟩, fun hp => absurd hstate hp,
          h.owner, h.once, h.cleaned⟩
        · simp [hqueue]
        · simp
        · simp [Semaphore.State.acquired]
    · exact h.consume hwaiting

theorem Inv.drop (h : Inv s) (fallback : Bool) :
    Ends (fun _ => True) (fun s' : State X E => Inv s') (s.drop fallback) := by
  rw [State.drop]
  split
  · split
    · rename_i hstate
      obtain ⟨ready, hready, hsize, hacquired⟩ := h.release hstate
      rw [hready]
      exact h.settle hstate hsize hacquired nofun (h.pending hstate).2.1 h.once
    · exact h
  · rename_i hreading
    have hnone : ∀ w ∈ s.waiting, s.ready.acquired w = true := by
      intro w hw
      have hnot := h.reading
      rw [Option.mem_def.mp hw] at hnot
      exact absurd hnot hreading
    split
    · rename_i hstate
      refine h.leave hnone nofun ?_ h.cleaned
      exact h.inCell (show s.inCell = [] by rw [State.inCell, hstate])
    · rename_i value hstate
      have hvalue := h.inCell (show s.inCell = [value] by rw [State.inCell, hstate])
      obtain ⟨hreturned, hcleaned, hdiscarded⟩ : s.returned = [] ∧ s.cleaned = [] ∧
          s.discarded = [] := by
        have honce := h.once
        rw [hvalue] at honce
        simp only [List.length_append, List.length_cons, List.length_nil] at honce
        refine ⟨List.length_eq_zero_iff.mp ?_, List.length_eq_zero_iff.mp ?_,
          List.length_eq_zero_iff.mp ?_⟩ <;> omega
      split
      · refine h.leave hnone nofun ?_ h.cleaned
        rw [hvalue, hreturned, hcleaned, hdiscarded]
        rfl
      · rename_i hclean
        refine h.leave hnone nofun ?_ fun hcleanup => absurd (by simp [hcleanup]) hclean
        rw [hvalue, hreturned, hcleaned, hdiscarded]
        rfl
    · rename_i error hstate
      refine h.leave hnone nofun ?_ h.cleaned
      exact h.inCell (show s.inCell = [] by rw [State.inCell, hstate])
    · rename_i hstate
      refine h.leave hnone nofun ?_ h.cleaned
      exact h.inCell (show s.inCell = [] by rw [State.inCell, hstate])
    · exact h
    · exact h

theorem Inv.exec (h : Inv s) (e : Event X E) :
    Ends (fun _ => True) (fun s' : State X E => Inv s') (s.exec e) := by
  cases e with
  | complete value => exact h.complete value
  | fail error => exact h.settleWith nofun rfl
  | close => exact h.settleWith nofun rfl
  | get c => exact h.get c
  | resume raised =>
    rw [State.exec]
    split
    · exact h.getResumed raised
    · exact h
  | drop fallback => exact h.drop fallback
  | schedule sched =>
    exact ⟨h.size, h.reading, h.pending, h.settled, h.owner, h.once, h.cleaned⟩

theorem Inv.of_reachable (h : (system X E).Reachable s) : Inv s := by
  refine System.Reachable.invariant (fun s hs => ?_) (fun s e s' hinv _ hexec => ?_) h
  · obtain ⟨ready, cleanup, ⟨-, -, waiter, rfl⟩, rfl⟩ := hs
    exact ⟨rfl, rfl, fun _ => ⟨rfl, rfl, rfl⟩, fun hp => absurd rfl hp, rfl, Nat.zero_le 1, fun _ => rfl⟩
  · exact (hinv.exec e).of_ok hexec

/-! ## One owner -/

/-- A reader that is gone stays gone. -/
theorem exec_readerDropped (h : Inv s) (hstate : s.state = .readerDropped) (e : Event X E)
    (hexec : s.exec e = .ok s') : s'.state = .readerDropped := by
  have hpending : s.state ≠ .pending := by
    rw [hstate]
    exact nofun
  cases e with
  | complete value =>
    simp only [State.exec, State.complete, settle_readerDropped hstate] at hexec
    cases hexec
    exact hstate
  | fail error =>
    simp only [State.exec, State.fail, settle_readerDropped hstate] at hexec
    cases hexec
    exact hstate
  | close =>
    simp only [State.exec, State.close, settle_readerDropped hstate] at hexec
    cases hexec
    exact hstate
  | get c =>
    simp only [State.exec, State.get, hstate] at hexec
    split at hexec
    · cases hexec
    · rw [State.consume, hstate] at hexec
      cases hexec
      exact hstate
  | resume raised =>
    simp only [State.exec] at hexec
    split at hexec
    · rename_i w hw
      have hacquired := h.settled hpending w hw
      simp only [State.getResumed, hacquired, Bool.not_true, Bool.and_false, Bool.false_eq_true,
        if_false, State.consume, hstate] at hexec
      cases hexec
      rfl
    · cases hexec
      exact hstate
  | drop fallback =>
    simp only [State.exec, State.drop, hstate] at hexec
    split at hexec
    · cases hexec
      exact hstate
    · cases hexec
      exact hstate
  | schedule sched =>
    cases hexec
    exact hstate

theorem run_readerDropped {es : List (Event X E)} (h : Inv s) (hstate : s.state = .readerDropped)
    (hrun : (system X E).Run s es s') : s'.state = .readerDropped := by
  induction hrun with
  | nil s => exact hstate
  | cons s s₁ s' e es _ hexec _ ih =>
    exact ih ((h.exec e).of_ok hexec) (exec_readerDropped h hstate e hexec)

theorem complete_refused (hstate : s.state = .readerDropped) (value : X) :
    s.exec (.complete value) = .ok { s with refused := value :: s.refused } := by
  simp only [State.exec, State.complete, settle_readerDropped hstate]
  rfl

/-- After the settlement a `get` that waits has its permit, and goes on even if it is raised in. -/
theorem Inv.resume_settled (h : Inv s) {w : CallId} (hw : w ∈ s.waiting) (hsettled : s.state ≠ .pending)
    (raised : Bool) : s.exec (.resume raised) = ({ s with
      ready := s.ready.acquireResumed w raised
      reading := false
      waiting := none } : State X E).consume := by
  have hacquired := h.settled hsettled w hw
  simp only [State.exec, Option.mem_def.mp hw, State.getResumed, hacquired, Bool.not_true,
    Bool.and_false, Bool.false_eq_true, if_false]

theorem Inv.oneOwner (h : Inv s) : OneOwner s where
  owner := h.owner
  once := h.once
  cleaned := h.cleaned
  consumed w hw value hstate raised := by
    refine ⟨{ s with
      ready := s.ready.acquireResumed w raised
      reading := false
      waiting := none
      state := .consumed
      returned := value :: s.returned }, ?_, rfl, rfl⟩
    rw [h.resume_settled hw (by rw [hstate]; exact nofun) raised]
    simp only [State.consume, hstate]
  ended w hw hstate raised := by
    refine ⟨{ s with
      ready := s.ready.acquireResumed w raised
      reading := false
      waiting := none
      state := .consumed }, ?_, rfl⟩
    rcases hstate with ⟨error, hstate⟩ | hstate
    · rw [h.resume_settled hw (by rw [hstate]; exact nofun) raised]
      simp only [State.consume, hstate]
    · rw [h.resume_settled hw (by rw [hstate]; exact nofun) raised]
      simp only [State.consume, hstate]
  cancelled w hw hstate := by
    -- a pending promise has not given the permit to the waiter
    obtain ⟨-, -, hqueue⟩ := h.pending hstate
    rw [Option.mem_def.mp hw] at hqueue
    have hacquired : s.ready.acquired w = false := hqueue.2.2
    refine ⟨({ s with ready := s.ready.acquireResumed w true } : State X E).getFailed, ?_, ?_⟩
    · simp only [State.exec, Option.mem_def.mp hw, State.getResumed, hacquired, Bool.not_false,
        Bool.and_true, if_true]
    · simp only [State.getFailed, hstate]
  refused hstate _ _ hrun :=
    have hdropped := run_readerDropped h hstate hrun
    ⟨hdropped, settle_readerDropped hdropped, complete_refused hdropped⟩

end Promise

end Moonbit

end WitBindgen
