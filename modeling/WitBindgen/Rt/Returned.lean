import WitBindgen.Rt.Driver

/-!
# What a driven operation returns

A read or a write goes through the driver from its start to its result: it is polled,
woken by an event, or cancelled, and looks at each code once. What the operation keeps
of its state along this way is stated once here, together with the code that is still to
be looked at, and carried over to what a poll or a cancellation returns.
-/

namespace WitBindgen

namespace Rt

/-- What holds of an operation while it is driven and of what it returns. -/
structure WaitableOp.Returns (S : WaitableOp) where
  Fresh : S.σ → S.Start → Prop
  Live : S.σ → S.InProgress → Prop
  /-- With a code that is still to be looked at. -/
  Told : S.σ → S.InProgress → Code → Prop
  Result : S.σ → S.Result → Prop
  Cancelled : S.σ → S.Cancel → Prop
  start : ∀ s a σ, Fresh σ s →
    Ends (fun _ => True) (fun r => Told r.2 r.1.2 r.1.1) (S.start s a σ)
  update : ∀ ip c σ, Told σ ip c → Ends (fun _ => True) (fun r =>
    match r.1 with
    | .ok result => Result r.2 result
    | .error ip' => Live r.2 ip') (S.inProgressUpdate ip c σ)
  startCancelled : ∀ s σ, Fresh σ s →
    Ends (fun _ => True) (fun r => Cancelled r.2 r.1) (S.startCancelled s σ)
  waitable : ∀ ip σ, Ends (fun _ => True) (fun r => r.2 = σ) (S.inProgressWaitable ip σ)
  cancel : ∀ ip a σ, Live σ ip →
    Ends (fun _ => True) (fun r => Told r.2 r.1.2 r.1.1) (S.inProgressCancel ip a σ)
  intoCancel : ∀ result σ, Result σ result →
    Ends (fun _ => True) (fun r => Cancelled r.2 r.1) (S.resultIntoCancel result σ)

theorem isDone_iff {S : WaitableOp} {o : WaitableOperation S} : o.isDone = true ↔ o.state = .done := by
  rw [WaitableOperation.isDone]
  cases o.state <;> simp

namespace World

variable {S : WaitableOp} {w : World S} (R : S.Returns)

/-- The operation has not returned, or is over. -/
def Driven (w : World S) : Prop :=
  match w.self.state with
  | .start s => R.Fresh w.self.op s ∧ w.self.completionStatus.code = none
  | .inProgress ip =>
    match w.self.completionStatus.code with
    | none => R.Live w.self.op ip
    | some code => R.Told w.self.op ip code
  | .done => True

variable {R}

theorem Driven.of_done (h : w.self.state = .done) : Driven R w := by
  rw [Driven, h]
  trivial

theorem Driven.of_blocked {ip : S.InProgress} (hstate : w.self.state = .inProgress ip)
    (hcode : w.self.completionStatus.code = none) (h : R.Live w.self.op ip) : Driven R w := by
  rw [Driven, hstate]
  simp only [hcode]
  exact h

theorem Driven.of_told {ip : S.InProgress} {code : Code} (hstate : w.self.state = .inProgress ip)
    (hcode : w.self.completionStatus.code = some code) (h : R.Told w.self.op ip code) : Driven R w := by
  rw [Driven, hstate]
  simp only [hcode]
  exact h

theorem call_returns {α : Type} {m : OpM S.σ α} {P : α × S.σ → Prop}
    (h : Ends (fun _ => True) P (m w.self.op)) :
    Ends (fun _ => True) (fun r => ∃ s, r.2 = w.setOp s ∧ P (r.1, s)) (w.call m) := by
  rw [call]
  cases hm : m w.self.op with
  | ok r => exact ⟨r.2, rfl, h.of_ok hm⟩
  | error text => exact trivial

/-- In progress, with no code to look at. -/
def Blocked (R : S.Returns) (dropped : Bool) (w : World S) : Prop :=
  ∃ ip, w.self.state = .inProgress ip ∧ w.self.completionStatus.code = none ∧ R.Live w.self.op ip ∧
    w.dropped = dropped

theorem pollPending_returns (cx : Option Context) (h : Blocked R w.dropped w) :
    Ends (fun _ => True) (fun r => r.1 = .pending ∧ Blocked R w.dropped r.2) (w.pollPending cx) := by
  obtain ⟨ip, hstate, hcode, hlive, -⟩ := h
  rw [pollPending, hstate]
  cases cx with
  | none => exact ⟨rfl, ip, hstate, hcode, hlive, rfl⟩
  | some cx =>
    refine (call_returns (R.waitable ip _)).bind fun r hr => ?_
    obtain ⟨waitable, w'⟩ := r
    obtain ⟨s, rfl, rfl⟩ := hr
    have hframe := (registerWaker_frame (w := w.setOp w.self.op) waitable cx).mono_error
      (F := fun _ => True) fun _ _ => trivial
    refine hframe.bind fun w' hf => ?_
    exact ⟨rfl, ip, hf.state.trans hstate, hf.code.trans hcode, hf.op ▸ hlive, hf.dropped⟩

theorem updateWith_returns {ip : S.InProgress} (code : Code)
    (hstate : w.self.state = .inProgress ip) (h : R.Told w.self.op ip code) :
    Ends (fun _ => True) (fun r => r.2.self.state = .done ∧
      r.2.self.completionStatus.code = w.self.completionStatus.code ∧ r.2.dropped = w.dropped ∧
      match r.1 with
      | .ok result => R.Result r.2.self.op result
      | .error ip' => R.Live r.2.self.op ip') (w.updateWith code) := by
  rw [updateWith, hstate]
  refine (call_returns (w := w.setState .done) (R.update ip code _ h)).bind fun r hr => ?_
  obtain ⟨r, w'⟩ := r
  obtain ⟨s, rfl, hr⟩ := hr
  exact ⟨rfl, rfl, rfl, hr⟩

/-- A result, or the operation is still in progress. -/
def ReturnedOrBlocked (R : S.Returns) (dropped : Bool) (r : Poll S.Result × World S) : Prop :=
  match r.1 with
  | .ready result => r.2.self.state = .done ∧ R.Result r.2.self.op result
  | .pending => Blocked R dropped r.2

theorem pollCompleteWithCode_returns (cx : Option Context) {ip : S.InProgress} {code : Code}
    (hstate : w.self.state = .inProgress ip) (hnone : w.self.completionStatus.code = none)
    (h : R.Told w.self.op ip code) :
    Ends (fun _ => True) (ReturnedOrBlocked R w.dropped) (w.pollCompleteWithCode cx (some code)) := by
  have hupdate := updateWith_returns (w := w.clearRegistered) code hstate h
  refine hupdate.bind fun r hr => ?_
  obtain ⟨r, w'⟩ := r
  obtain ⟨hdone, hcode, hdropped, hr⟩ := hr
  cases r with
  | ok result => exact ⟨hdone, hr⟩
  | error ip' =>
    have hblocked : Blocked R w'.dropped (w'.setState (.inProgress ip')) := ⟨ip', rfl, hcode.trans hnone, hr, rfl⟩
    refine (pollPending_returns (w := w'.setState (.inProgress ip')) cx hblocked).mono fun r hr => ?_
    obtain ⟨r, w''⟩ := r
    obtain ⟨rfl, hblocked'⟩ := hr
    exact hdropped ▸ hblocked'

theorem pollComplete_returns (cx : Context) (answer : Code) (h : Driven R w) :
    Ends (fun _ => True) (ReturnedOrBlocked R w.dropped) (w.pollComplete cx answer) := by
  rw [Driven] at h
  rw [pollComplete]
  cases hstate : w.self.state with
  | start s =>
    rw [hstate] at h
    refine (call_returns (w := w.setState .done) (R.start s answer _ h.1)).bind fun r hr => ?_
    obtain ⟨⟨code, ip⟩, w'⟩ := r
    obtain ⟨s', rfl, htold⟩ := hr
    exact pollCompleteWithCode_returns (some cx) rfl h.2 htold
  | inProgress ip =>
    rw [hstate] at h
    cases hcode : w.self.completionStatus.code with
    | none =>
      rw [hcode] at h
      refine (pollPending_returns (w := w.setCode none) (some cx) ⟨ip, hstate, rfl, h, rfl⟩).mono fun r hr => ?_
      obtain ⟨r, w'⟩ := r
      obtain ⟨rfl, hblocked⟩ := hr
      exact hblocked
    | some code =>
      rw [hcode] at h
      exact pollCompleteWithCode_returns (w := w.setCode none) (some cx) hstate rfl h
  | done => exact trivial

/-- The result of the operation becomes that of the cancellation. -/
theorem intoCancel_returns {result : S.Result} (hdone : w.self.state = .done) (h : R.Result w.self.op result) :
    Ends (fun _ => True) (fun r => r.2.self.state = .done ∧ R.Cancelled r.2.self.op r.1)
      (w.call (S.resultIntoCancel result)) := by
  refine (call_returns (R.intoCancel result _ h)).mono fun r hr => ?_
  obtain ⟨s, heq, hcancelled⟩ := hr
  rw [heq]
  exact ⟨hdone, hcancelled⟩

theorem cancelInProgress_returns (answer : Code) (h : Blocked R w.dropped w) :
    Ends (fun _ => True) (fun r => r.2.self.state = .done ∧ R.Cancelled r.2.self.op r.1)
      (w.cancelInProgress answer) := by
  obtain ⟨ip, hstate, hcode, hlive, -⟩ := h
  rw [cancelInProgress, hstate]
  refine (call_returns (R.cancel ip answer _ hlive)).bind fun r hr => ?_
  obtain ⟨⟨code, ip'⟩, w'⟩ := r
  obtain ⟨s, rfl, htold⟩ := hr
  have hlook := pollCompleteWithCode_returns none
    (w := ((w.setOp s).record .cancel).setState (.inProgress ip')) rfl hcode htold
  refine hlook.bind fun r hr => ?_
  obtain ⟨r, w'⟩ := r
  cases r with
  | ready result => exact intoCancel_returns hr.1 hr.2
  | pending => exact trivial

theorem cancel_returns (current : Option Wasip3Task) (answer : Code) (h : Driven R w) :
    Ends (fun _ => True) (fun r => r.2.self.state = .done ∧ R.Cancelled r.2.self.op r.1)
      (w.cancel current answer) := by
  rw [Driven] at h
  rw [World.cancel]
  cases hstate : w.self.state with
  | start s =>
    rw [hstate] at h
    refine (call_returns (w := w.setState .done) (R.startCancelled s _ h.1)).mono fun r hr => ?_
    obtain ⟨s', heq, hcancelled⟩ := hr
    rw [heq]
    exact ⟨rfl, hcancelled⟩
  | inProgress ip =>
    rw [hstate] at h
    cases hcode : w.self.completionStatus.code with
    | some code =>
      rw [hcode] at h
      -- a code that came before the cancellation decides
      have hlook := pollCompleteWithCode_returns none (w := w.setCode none) hstate rfl h
      refine hlook.bind fun r hr => ?_
      obtain ⟨r, w'⟩ := r
      cases r with
      | ready result => exact intoCancel_returns hr.1 hr.2
      | pending =>
        obtain ⟨ip', hstate', hcode', hlive, -⟩ := hr
        exact cancelInProgress_returns answer ⟨ip', hstate', hcode', hlive, rfl⟩
    | none =>
      rw [hcode] at h
      -- otherwise the waker goes and the host is asked
      refine (call_returns (R.waitable ip _)).bind fun r hr => ?_
      obtain ⟨waitable, w'⟩ := r
      obtain ⟨s, rfl, rfl⟩ := hr
      have hframe := (unregisterWaker_frame (w := w.setOp w.self.op) waitable current).mono_error
        (F := fun _ => True) fun _ _ => trivial
      refine hframe.bind fun w' hf => ?_
      exact cancelInProgress_returns answer
        ⟨ip, hf.state.trans hstate, hf.code.trans hcode, hf.op ▸ h, rfl⟩
  | done => exact trivial

/-- The event of an operation fills its completion status in; another leaves it alone. -/
theorem deliver_keeps (t : Ptr) (h : Waitable) (code : Code) :
    Ends (fun _ => True) (fun w' => w'.self.op = w.self.op ∧ w'.self.state = w.self.state ∧
      w'.dropped = w.dropped ∧ w'.self.completionStatus.code =
        if w.tasks.waitables t h = some w.addr then some code else w.self.completionStatus.code)
      (w.deliverWaitableEvent t h code) := by
  rw [deliverWaitableEvent]
  simp only [Tasks.waitableUnregister]
  cases w.tasks.waitables t h with
  | none => exact trivial
  | some p =>
    by_cases hours : p = w.addr
    · simp only [hours, if_true]
      rw [cabiWake]
      split
      · exact ⟨rfl, rfl, rfl, rfl⟩
      · exact trivial
    · have hother : some p ≠ some w.addr := fun heq => hours (Option.some.inj heq)
      simp only [if_neg hours, if_neg hother]
      exact ⟨rfl, rfl, rfl, rfl⟩

end World

end Rt

end WitBindgen
