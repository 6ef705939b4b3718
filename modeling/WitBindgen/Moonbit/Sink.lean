import WitBindgen.Moonbit.StreamFlow

/-!
# Writing to a sink

`Sink::write` and `Sink::write_all` of `async/trait.mbt`, on the sink that
`stream_pipe_sink` makes of a pipe. A call copies a window of its view for the write
callback, which is `stream_pipe_write`. What the callback did not take is left to the
caller, or goes to the cleanup callback if the sink is closed by then; `write_all` goes
on with the next window until the view is used up or the sink is closed.

A call is suspended only inside the write callback. It then goes on in the same turn
of the scheduler in which the callback returns.
-/

namespace WitBindgen

namespace Moonbit

namespace Sink

open StreamPipe (Event WriteId Waits)

abbrev CallId := Nat

abbrev Pipe := StreamPipe.State

/-- `default_sink_write_window_size`. -/
def writeWindowSize : Nat := 64

/-- The `is_open` callback. -/
def isOpen {α : Type} (pipe : Pipe α) : Bool := !pipe.writerClosed && !pipe.readerDropped

/-- What a call returned, or that it raised. -/
inductive Outcome where
  | written (n : Nat)
  | wroteAll (ok : Bool)
  | raised
deriving DecidableEq

/-- The end of a call, with what `is_open` and `has_cleanup` of the sink tell then. -/
structure Ended where
  outcome : Outcome
  isOpen : Bool
  hasCleanup : Bool
deriving DecidableEq

/-- A call of `write_all`, or of `write` where `all` is not set. `writes` are its calls
of the write callback, and `cleaned` is what it gave to the cleanup callback. -/
structure Call (α : Type) where
  all : Bool
  data : List α
  offset : Nat
  writes : List WriteId
  cleaned : List α
  ended : Option Ended

namespace Call

variable {α : Type} (call : Call α) (pipe : Pipe α)

/-- The copy that the write callback gets. -/
def window : List α := (call.data.drop call.offset).take writeWindowSize

/-- `cleanup_unaccepted`. The cleanup callback of the sink is that of the pipe. -/
def cleanupUnaccepted (data : List α) (offset : Nat) : Call α :=
  if pipe.cleanup then { call with cleaned := call.cleaned ++ data.drop offset } else call

def finish (outcome : Outcome) : Call α :=
  { call with ended := some ⟨outcome, isOpen pipe, pipe.cleanup⟩ }

/-- The rest of `Sink::write`, after its callback returned. -/
def consumed (buffer : List α) (written : Nat) : Except String (Nat × Call α) :=
  if buffer.length < written then .error "guard failed"
  else if !isOpen pipe && decide (written < buffer.length) && pipe.cleanup then
    .ok (buffer.length, call.cleanupUnaccepted pipe buffer written)
  else .ok (written, call)

/-- A turn of the loop of `write_all`, after `Sink::write` returned. -/
def advance (written : Nat) : Except String (Call α) :=
  let call := { call with offset := call.offset + written }
  if !isOpen pipe then
    .ok ((call.cleanupUnaccepted pipe call.data call.offset).finish pipe (.wroteAll false))
  else if written = 0 then .error "guard failed"
  else .ok call

/-- The write callback raised, or returned a number. -/
def answered : Option Nat → Except String (Call α)
  | none =>
    let call := if call.all then call.cleanupUnaccepted pipe call.data call.offset else call
    .ok (call.finish pipe .raised)
  | some written => do
      let (n, call) ← call.consumed pipe call.window written
      if call.all then call.advance pipe n else .ok (call.finish pipe (.written n))

/-- How much is ahead of a call. -/
def remaining : Nat := if call.ended.isSome then 0 else call.data.length - call.offset + 1

end Call

/-- A pipe and the calls of its sink. `owner` tells which of them made a write. -/
structure State (α : Type) where
  pipe : Pipe α
  calls : CallId → Call α
  count : CallId
  owner : WriteId → Option CallId

section
variable {α : Type} {call call' : Call α} {pipe : Pipe α}

theorem cleanupUnaccepted_eq (data : List α) (offset : Nat) : call.cleanupUnaccepted pipe data offset =
    { call with cleaned := call.cleaned ++ if pipe.cleanup then data.drop offset else [] } := by
  rw [Call.cleanupUnaccepted]
  split
  · rfl
  · rw [List.append_nil]

/-- `Sink::write` takes the whole window if it closed meanwhile and there is a cleanup callback. -/
theorem consumed_inv {buffer : List α} {written n : Nat}
    (h : call.consumed pipe buffer written = .ok (n, call')) :
    written ≤ buffer.length ∧
      (n = written ∧ call' = call ∧ (isOpen pipe = true ∨ written = buffer.length ∨ pipe.cleanup = false) ∨
        n = buffer.length ∧ isOpen pipe = false ∧ pipe.cleanup = true ∧
          call' = { call with cleaned := call.cleaned ++ buffer.drop written }) := by
  rw [Call.consumed] at h
  split at h
  · exact nomatch h
  · rename_i hlt
    refine ⟨Nat.le_of_not_lt hlt, ?_⟩
    split at h
    · rename_i hclosed
      simp only [Bool.and_eq_true, Bool.not_eq_true', decide_eq_true_eq] at hclosed
      obtain ⟨⟨hopen, -⟩, hcleanup⟩ := hclosed
      obtain ⟨rfl, rfl⟩ := Prod.mk.inj (Except.ok.inj h)
      refine Or.inr ⟨rfl, hopen, hcleanup, ?_⟩
      rw [cleanupUnaccepted_eq, if_pos hcleanup]
    · rename_i hopen
      obtain ⟨rfl, rfl⟩ := Prod.mk.inj (Except.ok.inj h)
      refine Or.inl ⟨rfl, rfl, ?_⟩
      simp only [Bool.and_eq_true, Bool.not_eq_true', decide_eq_true_eq, not_and, Bool.not_eq_true] at hopen
      by_cases ho : isOpen pipe = true
      · exact Or.inl ho
      · by_cases hw : written < buffer.length
        · exact Or.inr (Or.inr (hopen ⟨Bool.not_eq_true _ ▸ ho, hw⟩))
        · exact Or.inr (Or.inl (by omega))

theorem advance_inv {n : Nat} (h : call.advance pipe n = .ok call') :
    isOpen pipe = false ∧ call' = { call with
        offset := call.offset + n
        cleaned := call.cleaned ++ if pipe.cleanup then call.data.drop (call.offset + n) else []
        ended := some ⟨.wroteAll false, false, pipe.cleanup⟩ } ∨
      isOpen pipe = true ∧ 0 < n ∧ call' = { call with offset := call.offset + n } := by
  rw [Call.advance] at h
  dsimp only at h
  split at h
  · rename_i hclosed
    rw [Bool.not_eq_true'] at hclosed
    refine Or.inl ⟨hclosed, ?_⟩
    rw [← Except.ok.inj h, cleanupUnaccepted_eq, Call.finish, hclosed]
  · rename_i hopen
    rw [Bool.not_eq_true', Bool.not_eq_false] at hopen
    split at h
    · exact nomatch h
    · exact Or.inr ⟨hopen, by omega, (Except.ok.inj h).symm⟩

/-- After an answer a call has ended or got on. -/
theorem answered_remaining {r : Option Nat} (h : call.answered pipe r = .ok call')
    (hoffset : call.offset < call.data.length) (hended : call.ended = none) :
    call'.remaining < call.remaining := by
  have hcall : call.remaining = call.data.length - call.offset + 1 := by
    rw [Call.remaining, hended]
    rfl
  have hdone : ∀ {e : Ended}, call'.ended = some e → call'.remaining < call.remaining := fun he => by
    rw [hcall, Call.remaining, he]
    exact Nat.succ_pos _
  cases r with
  | none =>
    obtain rfl := Except.ok.inj h
    exact hdone rfl
  | some written =>
    rw [Call.answered] at h
    cases hcons : call.consumed pipe call.window written with
    | error e => rw [hcons] at h; exact nomatch h
    | ok x =>
      obtain ⟨n, call₁⟩ := x
      rw [hcons] at h
      have hsame : call₁.data = call.data ∧ call₁.offset = call.offset ∧ call₁.ended = call.ended := by
        obtain ⟨-, ⟨-, rfl, -⟩ | ⟨-, -, -, rfl⟩⟩ := consumed_inv hcons <;> exact ⟨rfl, rfl, rfl⟩
      obtain ⟨hdata, hoff, hend⟩ := hsame
      change (if call₁.all then call₁.advance pipe n else .ok (call₁.finish pipe (.written n))) = _ at h
      split at h
      · obtain ⟨-, rfl⟩ | ⟨-, hpos, rfl⟩ := advance_inv h
        · exact hdone rfl
        · rw [hcall, Call.remaining]
          dsimp only
          rw [hend, hended, hdata, hoff]
          simp only [Option.isSome_none, Bool.false_eq_true, if_false]
          omega
      · obtain rfl := Except.ok.inj h
        exact hdone rfl

end

namespace State

variable {α : Type} (s : State α)

def setCall (k : CallId) (call : Call α) : State α := { s with calls := Function.update s.calls k call }

/-- The write callback is called with the window of a call. -/
def callback (c : CoroId) (k : CallId) : State α :=
  let call := s.calls k
  { s with
    pipe := s.pipe.write c call.window
    calls := Function.update s.calls k { call with writes := call.writes ++ [s.pipe.writes] }
    owner := Function.update s.owner s.pipe.writes (some k) }

/-- A call runs until it ends, or until its write callback is suspended. -/
def run (c : CoroId) (k : CallId) (s : State α) : Except String (State α) :=
  let call := s.calls k
  if _hended : call.ended.isSome then .ok s
  else if _hoffset : call.data.length ≤ call.offset then
    .ok (s.setCall k (call.finish s.pipe (if call.all then .wroteAll true else .written 0)))
  else
    let s' := s.callback c k
    match s'.pipe.results.lookup s.pipe.writes with
    | none => .ok s'
    | some r =>
      match _h : (s'.calls k).answered s'.pipe r with
      | .error e => .error e
      | .ok call' => run c k (s'.setCall k call')
termination_by (s.calls k).remaining
decreasing_by
  have hcall : (s'.setCall k call').calls k = call' := Function.update_self ..
  have hold : s'.calls k = { s.calls k with writes := (s.calls k).writes ++ [s.pipe.writes] } :=
    Function.update_self ..
  rw [hcall]
  rw [hold] at _h
  have hlt := answered_remaining _h (Nat.lt_of_not_le _hoffset) (Option.not_isSome_iff_eq_none.mp _hended)
  exact hlt

/-- `write`, and `write_all` where `all` is set. -/
def start (c : CoroId) (all : Bool) (data : List α) : Except String (State α) :=
  run c s.count { s with
    calls := Function.update s.calls s.count ⟨all, data, 0, [], [], none⟩
    count := s.count + 1 }

/-- One turn of `reschedule`, in which a call goes on if its write callback returns. -/
def resume (lane : Lane) : Except String (State α) :=
  let s' : State α := { s with pipe := s.pipe.resume lane }
  match s.pipe.sched.runLater lane with
  | [] => .ok s'
  | c :: _ =>
    match (s.pipe.sched.coros c).state with
    | .suspend (.write w) =>
      match s.owner w, s'.pipe.results.lookup w with
      | some k, some r =>
        match (s.calls k).answered s'.pipe r with
        | .error e => .error e
        | .ok call => run c k (s'.setCall k call)
      | _, _ => .ok s'
    | _ => .ok s'

end State

/-! ## Runs -/

/-- What coroutines do: they call the sink, or do something else with the pipe. -/
inductive SinkEvent (α : Type) where
  | call (all : Bool) (data : List α)
  | other (e : Event α)

namespace State

variable {α : Type} (s : State α)

def exec : SinkEvent α → Except String (State α)
  | .call all data =>
    match s.pipe.sched.currCoro with
    | some c => s.start c all data
    | none => .error "called `unwrap` on a `None` value"
  | .other (.resume lane) => s.resume lane
  | .other e => (s.pipe.exec e).map fun pipe => { s with pipe }

/-- The pipe is written to through its sink. -/
def allowed : SinkEvent α → Prop
  | .call _ _ => s.pipe.sched.currCoro.isSome = true
  | .other (.write _) => False
  | .other e => s.pipe.allowed e

def fresh (α : Type) (capacity : Nat) (cleanup : Bool) : State α where
  pipe := .fresh α capacity cleanup
  calls _ := ⟨false, [], 0, [], [], none⟩
  count := 0
  owner _ := none

/-- No coroutine calls the sink or reads while its entry is still in the run queue:
it was cancelled while it ran, and shields itself now. And none is woken from
elsewhere while it waits in the pipe. -/
def Undisturbed : SinkEvent α → Prop
  | .call _ data => s.pipe.Undisturbed (.write data)
  | .other e => s.pipe.Undisturbed e

end State

/-- Every run of coroutines that use a pipe through its sink. -/
def system (α : Type) (capacity : Nat) (cleanup : Bool) : System (State α) (SinkEvent α) String where
  init s := s = State.fresh α capacity cleanup
  allowed := State.allowed
  exec := State.exec

/-- The runs whose steps all meet `Undisturbed`. -/
def orderly (α : Type) (capacity : Nat) (cleanup : Bool) : System (State α) (SinkEvent α) String where
  init s := s = State.fresh α capacity cleanup
  allowed s e := s.allowed e ∧ s.Undisturbed e
  exec := State.exec

end Sink

end Moonbit

end WitBindgen
