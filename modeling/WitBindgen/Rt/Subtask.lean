import WitBindgen.Rt.Registration

/-!
# Calls of asynchronous imports

`rt/async_support/subtask.rs`: a call of an imported function as an operation on
the waitable of its subtask. The lowered parameters, the buffer for parameters and
results, and the handle of the subtask are released along the way; `log` lists what
is done with them.
-/

namespace WitBindgen

namespace Rt

def statusStarting : Code := 0
def statusStarted : Code := 1
def statusReturned : Code := 2
def statusStartedCancelled : Code := 3
def statusReturnedCancelled : Code := 4

/-- `trait Subtask`, as the bindings implement it for one import. -/
structure Subtask where
  Params : Type
  ParamsLower : Type
  Results : Type
  /-- The size of parameters and results in memory. -/
  abiLayout : Nat
  paramsLower : Params → ParamsLower
  /-- What is lifted from the memory the callee wrote its results to. -/
  resultsLift : Results

namespace Subtask

/-- What happens to the memory and the handles of a call. -/
inductive Step (P : Type) where
  | allocBuffer
  | lowerParams (p : P)
  /-- With what the import returned. -/
  | callImport (p : P) (packed : Code)
  | deallocLists (p : P)
  | deallocListsAndOwn (p : P)
  | liftResults
  | freeBuffer
  | dropHandle (handle : Waitable)
  /-- The parameters are dropped as Rust values, never having been lowered. -/
  | dropParams
deriving DecidableEq

variable (T : Subtask)

structure InProgress where
  /-- Whether there is a buffer. -/
  paramsAndResults : Bool
  paramsLower : T.ParamsLower
  started : Bool
  subtask : Option Waitable

abbrev Log := List (Step T.ParamsLower)

def emit (s : Step T.ParamsLower) : OpM T.Log Unit := fun log => .ok ((), log ++ [s])

def panic {α : Type} (text : String) : OpM T.Log α := fun _ => .error text

variable {T}

/-- The fields of the state go in the order of their declaration. -/
def InProgress.drop (state : T.InProgress) : OpM T.Log Unit := do
  if state.paramsAndResults then T.emit .freeBuffer else pure ()
  match state.subtask with
  | some handle => T.emit (.dropHandle handle)
  | none => pure ()

def InProgress.flagStarted (state : T.InProgress) : OpM T.Log T.InProgress :=
  if state.started then T.panic "assertion failed: !self.started"
  else do
    T.emit (.deallocLists state.paramsLower)
    pure { state with started := true }

/-- Flags the call as started unless it has been. -/
def InProgress.ensureStarted (state : T.InProgress) : OpM T.Log T.InProgress :=
  if state.started then pure state else state.flagStarted

variable (T)

/-- `packed` is what the import returns: a status, and the handle above it. -/
def start (params : T.Params) (packed : Code) : OpM T.Log (Code × T.InProgress) := do
  let cleanup : Bool := T.abiLayout ≠ 0
  if cleanup then T.emit .allocBuffer else pure ()
  let paramsLower := T.paramsLower params
  T.emit (.lowerParams paramsLower)
  T.emit (.callImport paramsLower packed)
  let handle := packed >>> 4
  pure (packed &&& 0xf,
    { paramsAndResults := cleanup
      paramsLower
      started := false
      subtask := if handle = 0 then none else some handle })

def startCancelled (_params : T.Params) : OpM T.Log (Except Unit T.Results) := do
  T.emit .dropParams
  pure (.error ())

def inProgressUpdate (state : T.InProgress) (code : Code) :
    OpM T.Log (Except T.InProgress (Except Unit T.Results)) :=
  if code = statusStarting then
    if state.started then T.panic "assertion failed: !state.started" else pure (.error state)
  else if code = statusStarted then do
    let state ← state.flagStarted
    pure (.error state)
  else if code = statusReturned then do
    let state ← state.ensureStarted
    T.emit .liftResults
    state.drop
    pure (.ok (.ok T.resultsLift))
  else if code = statusStartedCancelled then
    if state.started then T.panic "assertion failed: !state.started"
    else do
      T.emit (.deallocListsAndOwn state.paramsLower)
      state.drop
      pure (.ok (.error ()))
  else if code = statusReturnedCancelled then do
    let state ← state.ensureStarted
    state.drop
    pure (.ok (.error ()))
  else T.panic "unknown code"

def inProgressWaitable (state : T.InProgress) : OpM T.Log Waitable :=
  match state.subtask with
  | some handle => pure handle
  | none => T.panic "called `Option::unwrap()` on a `None` value"

def inProgressCancel (state : T.InProgress) (answer : Code) : OpM T.Log (Code × T.InProgress) := do
  let _ ← T.inProgressWaitable state
  pure (answer, state)

/-- `SubtaskOps`. -/
def ops : WaitableOp where
  σ := T.Log
  Start := T.Params
  InProgress := T.InProgress
  Result := Except Unit T.Results
  Cancel := Except Unit T.Results
  start := T.start
  inProgressUpdate := T.inProgressUpdate
  startCancelled := T.startCancelled
  inProgressWaitable := T.inProgressWaitable
  inProgressCancel := T.inProgressCancel
  resultIntoCancel := pure

/-! ## The trait's contract -/

/-- The statuses of a call that goes on. -/
def pending (code : Code) : Bool := code = statusStarting ∨ code = statusStarted

theorem ops_waitable (log : T.Log) (state : T.InProgress) :
    T.ops.waitable log state = state.subtask := by
  obtain ⟨b, p, s, subtask⟩ := state
  cases subtask <;> rfl

variable {T} {state state' : T.InProgress} {log log' : T.Log} {code : Code}

theorem bind_ok {α β : Type} {m : OpM T.Log α} {f : α → OpM T.Log β} {r : β × T.Log}
    (h : (m >>= f) log = .ok r) : ∃ a log₁, m log = .ok (a, log₁) ∧ f a log₁ = .ok r := by
  cases hm : m log with
  | ok x => exact ⟨x.1, x.2, rfl, by simpa [bind, StateT.bind, hm, Except.bind] using h⟩
  | error text => simp [bind, StateT.bind, hm, Except.bind] at h

theorem emit_bind {α : Type} (x : Step T.ParamsLower) (f : Unit → OpM T.Log α) :
    (T.emit x >>= f) log = f () (log ++ [x]) := rfl

theorem flagStarted_bind {α : Type} (h : state.started = false) (f : T.InProgress → OpM T.Log α) :
    (state.flagStarted >>= f) log =
      f { state with started := true } (log ++ [Step.deallocLists state.paramsLower]) := by
  rw [InProgress.flagStarted, h]
  rfl

/-- Only these codes keep a call in progress, and the handle stays. -/
theorem inProgressUpdate_error
    (h : T.inProgressUpdate state code log = .ok (.error state', log')) :
    pending code = true ∧ state'.subtask = state.subtask := by
  rw [inProgressUpdate] at h
  split at h
  · rename_i hcode
    refine ⟨by simp [pending, hcode], ?_⟩
    split at h
    · cases h
    · cases h; rfl
  · split at h
    · rename_i hcode
      refine ⟨by simp [pending, hcode], ?_⟩
      obtain ⟨state₁, log₁, hflag, h⟩ := bind_ok h
      cases h
      cases hs : state.started with
      | true => rw [InProgress.flagStarted, hs] at hflag; cases hflag
      | false => rw [InProgress.flagStarted, hs] at hflag; cases hflag; rfl
    · split at h
      · obtain ⟨_, _, -, h⟩ := bind_ok h
        obtain ⟨_, _, -, h⟩ := bind_ok h
        obtain ⟨_, _, -, h⟩ := bind_ok h
        cases h
      · split at h
        · split at h
          · cases h
          · obtain ⟨_, _, -, h⟩ := bind_ok h
            obtain ⟨_, _, -, h⟩ := bind_ok h
            cases h
        · split at h
          · obtain ⟨_, _, -, h⟩ := bind_ok h
            obtain ⟨_, _, -, h⟩ := bind_ok h
            cases h
          · cases h

theorem inProgressCancel_ok {a : Code}
    (h : T.inProgressCancel state a log = .ok ((code, state'), log')) :
    code = a ∧ state' = state := by
  obtain ⟨_, _, -, h⟩ := bind_ok h
  cases h
  exact ⟨rfl, rfl⟩

variable (T) in
def contract : T.ops.Contract where
  pending := pending
  waitable_state state log h log' hrun := by
    obtain ⟨b, p, s, subtask⟩ := state
    cases subtask with
    | none => cases hrun
    | some handle => cases hrun; rfl
  update_waitable state code log state' log' hrun := by
    exact ((T.ops_waitable log' state').trans (inProgressUpdate_error hrun).2).trans
      (T.ops_waitable log state).symm
  update_pending state code log state' log' hrun := (inProgressUpdate_error hrun).1
  cancel_code state a log code state' log' hrun := (inProgressCancel_ok hrun).1
  cancel_waitable state a log code state' log' hrun := by
    obtain rfl := (inProgressCancel_ok hrun).2
    exact (T.ops_waitable log' _).trans (T.ops_waitable log _).symm

end Subtask

/-! ## A call -/

/-- An import that takes and returns a word. -/
def wordImport : Subtask where
  Params := Nat
  ParamsLower := Nat
  Results := Nat
  abiLayout := 8
  paramsLower := id
  resultsLift := 0

namespace World

/-- A call of the import that is not polled yet. -/
def freshCall : World wordImport.ops where
  self := .new [] (7 : Nat)
  addr := 0
  tasks := .none
  calls := []
  dropped := false

theorem freshCall_init : (system wordImport.contract).init freshCall :=
  ⟨[], (7 : Nat), rfl, fun _ _ => nofun, rfl, rfl⟩

theorem freshCall_startsFresh (answer : Code) : freshCall.StartsFresh answer :=
  fun _ _ _ _ _ _ _ _ _ => rfl

/-- The call has started, and waits in task 1. -/
def startedCall : World wordImport.ops where
  self := {
    op := [.allocBuffer, .lowerParams (7 : Nat), .callImport (7 : Nat) 0x11,
      .deallocLists (7 : Nat)]
    state := .inProgress ⟨true, (7 : Nat), true, some 1⟩
    task := none
    completionStatus := ⟨none, some 0⟩ }
  addr := 0
  tasks := (Tasks.none.waitableRegister 1 1 0).2
  calls := [.start, .update statusStarted false]
  dropped := false

end World

end Rt

end WitBindgen
