import WitBindgen.Rt.Registration

/-!
# What the driver guarantees to the operation it drives

A `Logic` for a `WaitableOp` says which codes the host may give in each state of
the operation and what each call makes of the state. The driver calls the
operation in an order in which the host's codes always apply, whatever order the
operation is polled, woken, cancelled and dropped in, and in whichever tasks.
-/

namespace WitBindgen

namespace Rt

/-- Pre- and postconditions of the calls of `S`. -/
structure WaitableOp.Logic (S : WaitableOp) where
  /-- The panics the calls may end in. -/
  MayPanic : String → Prop
  /-- Not started. -/
  Fresh : S.σ → S.Start → Prop
  /-- What the host may answer to the intrinsic that starts the operation. -/
  Starts : S.σ → S.Start → Code → Prop
  /-- In progress, every code so far looked at. -/
  Live : S.σ → S.InProgress → Prop
  /-- In progress, with a code that is still to be looked at. -/
  Tells : S.σ → S.InProgress → Code → Prop
  /-- What the host may report, given the last code that is not looked at yet. -/
  Reports : S.σ → S.InProgress → Option Code → Code → Prop
  /-- What the host may answer to the cancellation intrinsic. -/
  Answers : S.σ → S.InProgress → Option Code → Code → Prop
  /-- Completed by a code, or cancelled before it started. -/
  Over : S.σ → Option Code → Prop
  start : ∀ s a σ, Fresh σ s → Starts σ s a →
    Ends MayPanic (fun r => Tells r.2 r.1.2 r.1.1) (S.start s a σ)
  report : ∀ σ ip pending c, Live σ ip → (∀ p ∈ pending, Tells σ ip p) →
    Reports σ ip pending c → Tells σ ip c
  update : ∀ ip c σ, Tells σ ip c → Ends MayPanic (fun r =>
    match r.1 with
    | .ok result => Over r.2 (some c) ∧
        Ends MayPanic (fun r' => Over r'.2 (some c)) (S.resultIntoCancel result r.2)
    | .error ip' => Live r.2 ip' ∧ ∀ a, Answers σ ip (some c) a → Answers r.2 ip' none a)
    (S.inProgressUpdate ip c σ)
  startCancelled : ∀ s σ, Fresh σ s →
    Ends MayPanic (fun r => Over r.2 none) (S.startCancelled s σ)
  waitable : ∀ ip σ, Live σ ip → Ends MayPanic (fun r => r.2 = σ) (S.inProgressWaitable ip σ)
  cancel : ∀ ip a σ, Live σ ip → Answers σ ip none a →
    Ends MayPanic (fun r => Tells r.2 r.1.2 r.1.1) (S.inProgressCancel ip a σ)

/-- A panic of the driver. -/
def Panic.IsOwn (p : Panic) : Prop := ∃ text, p = .own text

/-- A panic of the driver, or one the operation may end in. -/
inductive WaitableOp.Logic.Panics {S : WaitableOp} (L : S.Logic) : Panic → Prop
  | own (text : String) : L.Panics (.own text)
  | op (text : String) (h : L.MayPanic text) : L.Panics (.op text)

/-- The code that completed an operation with this history. -/
def completedBy (calls : List OpCall) : Option Code :=
  match calls.getLast? with
  | some (.update c true) => some c
  | _ => none

@[simp] theorem completedBy_update (calls : List OpCall) (c : Code) :
    completedBy (calls ++ [OpCall.update c true]) = some c := by
  simp [completedBy]

@[simp] theorem completedBy_pending (calls : List OpCall) (c : Code) :
    completedBy (calls ++ [OpCall.update c false]) = none := by
  simp [completedBy]

namespace World

variable {S : WaitableOp} {w : World S} (L : S.Logic)

/-- What the host may do to an operation in this state. -/
def Obeys (w : World S) : Event → Prop
  | .poll _ _ answer => ∀ s, w.self.state = .start s → L.Starts w.self.op s answer
  | .deliver t h code => w.tasks.waitables t h = some w.addr →
      ∀ ip, w.self.state = .inProgress ip →
        L.Reports w.self.op ip w.self.completionStatus.code code
  | .cancel _ answer | .drop _ answer => ∀ ip, w.self.state = .inProgress ip →
      L.Answers w.self.op ip w.self.completionStatus.code answer
  | .other _ => True

inductive OpInv (w : World S) : Prop
  | fresh (s : S.Start) (hstate : w.self.state = .start s) (h : L.Fresh w.self.op s)
      (hcalls : w.calls = []) (hcode : w.self.completionStatus.code = none)
      (hnowhere : w.tasks.Nowhere w.addr) (hdropped : w.dropped = false)
  | live (ip : S.InProgress) (hstate : w.self.state = .inProgress ip) (h : L.Live w.self.op ip)
      (hcode : ∀ c ∈ w.self.completionStatus.code, L.Tells w.self.op ip c)
      (hcalls : completedBy w.calls = none) (hdropped : w.dropped = false)
  | settled (hstate : w.self.state = .done) (h : L.Over w.self.op (completedBy w.calls))

variable {L}

theorem call_ends {α : Type} {m : OpM S.σ α} {P : α × S.σ → Prop}
    (h : Ends L.MayPanic P (m w.self.op)) :
    Ends L.Panics (fun r => ∃ s, r.2 = w.setOp s ∧ P (r.1, s)) (w.call m) := by
  rw [call]
  cases hm : m w.self.op with
  | ok r => exact ⟨r.2, rfl, h.of_ok hm⟩
  | error text => exact .op text (h.of_error hm)

/-- Registration touches neither the operation nor its state. -/
theorem registerWaker_frame (h : Waitable) (cx : Context) :
    Ends Panic.IsOwn (fun w' => Frame w w') (w.registerWaker h cx) := by
  rw [registerWaker]
  split
  · exact ⟨_, rfl⟩
  · split
    · exact ⟨_, rfl⟩
    · dsimp only
      split
      · exact ⟨_, rfl⟩
      · rename_i task _ _
        have hremember : Frame w ((w.setWaker (some cx.waker)).rememberTask h task) := by
          rw [rememberTask]
          split
          · split <;> exact ⟨rfl, rfl, rfl, rfl, rfl, rfl⟩
          · exact ⟨rfl, rfl, rfl, rfl, rfl, rfl⟩
        have hframe : Frame w (if wasip3TaskV2 ≤ task.version then
            (w.setWaker (some cx.waker)).rememberTask h task else w.setWaker (some cx.waker)) := by
          split
          · exact hremember
          · exact ⟨rfl, rfl, rfl, rfl, rfl, rfl⟩
        generalize (if wasip3TaskV2 ≤ task.version then
          (w.setWaker (some cx.waker)).rememberTask h task else w.setWaker (some cx.waker)) = w₁
          at hframe ⊢
        split
        · exact ⟨hframe.op, hframe.state, hframe.code, hframe.addr, hframe.calls, hframe.dropped⟩
        · exact ⟨_, rfl⟩

theorem unregisterWaker_frame (h : Waitable) (current : Option Wasip3Task) :
    Ends Panic.IsOwn (fun w' => Frame w w') (w.unregisterWaker h current) := by
  rw [unregisterWaker.eq_def]
  dsimp only
  split
  · split
    · exact ⟨rfl, rfl, rfl, rfl, rfl, rfl⟩
    · exact ⟨_, rfl⟩
  · split
    · exact ⟨_, rfl⟩
    · split
      · exact ⟨_, rfl⟩
      · split
        · exact ⟨rfl, rfl, rfl, rfl, rfl, rfl⟩
        · exact ⟨_, rfl⟩

theorem registerWaker_ends (h : Waitable) (cx : Context) :
    Ends L.Panics (fun w' => Frame w w') (w.registerWaker h cx) :=
  (registerWaker_frame h cx).mono_error fun _ ⟨_, hown⟩ => hown ▸ .own _

theorem unregisterWaker_ends (h : Waitable) (current : Option Wasip3Task) :
    Ends L.Panics (fun w' => Frame w w') (w.unregisterWaker h current) :=
  (unregisterWaker_frame h current).mono_error fun _ ⟨_, hown⟩ => hown ▸ .own _

theorem pollPending_ends {ip : S.InProgress} (cx : Option Context)
    (hstate : w.self.state = .inProgress ip) (hlive : L.Live w.self.op ip)
    (hcode : ∀ c ∈ w.self.completionStatus.code, L.Tells w.self.op ip c)
    (hcalls : completedBy w.calls = none) (hdropped : w.dropped = false) :
    Ends L.Panics (fun r => r.1 = .pending ∧ OpInv L r.2) (w.pollPending cx) := by
  rw [pollPending, hstate]
  cases cx with
  | none => exact ⟨rfl, .live ip hstate hlive hcode hcalls hdropped⟩
  | some cx =>
    refine (call_ends (L.waitable ip _ hlive)).bind fun r hr => ?_
    obtain ⟨h, w'⟩ := r
    obtain ⟨s, rfl, hs⟩ := hr
    dsimp only at hs ⊢
    subst hs
    refine (registerWaker_ends h cx).bind fun w' hf => ?_
    refine ⟨rfl, .live ip (hf.state.trans hstate) (hf.op ▸ hlive) ?_ (hf.calls ▸ hcalls)
      (hf.dropped.trans hdropped)⟩
    rw [hf.code, hf.op]
    exact hcode

/-- The operation was completed by `code`, with this result. -/
def CompletedWith (L : S.Logic) (code : Code) (result : S.Result) (w : World S) : Prop :=
  w.self.state = .done ∧ completedBy w.calls = some code ∧ L.Over w.self.op (some code) ∧
    Ends L.MayPanic (fun r => L.Over r.2 (some code)) (S.resultIntoCancel result w.self.op)

theorem updateWith_ends {ip : S.InProgress} {code : Code} (hstate : w.self.state = .inProgress ip)
    (htells : L.Tells w.self.op ip code) :
    Ends L.Panics (fun r => r.2.self.completionStatus.code = w.self.completionStatus.code ∧
      r.2.dropped = w.dropped ∧
      match r.1 with
      | .ok result => CompletedWith L code result r.2
      | .error ip' => (L.Live r.2.self.op ip' ∧
          ∀ a, L.Answers w.self.op ip (some code) a → L.Answers r.2.self.op ip' none a) ∧
          completedBy r.2.calls = none)
      (w.updateWith code) := by
  rw [updateWith, hstate]
  have hcall := call_ends (w := w.setState .done) (L.update ip code _ htells)
  refine hcall.bind fun r hr => ?_
  obtain ⟨r, w'⟩ := r
  obtain ⟨s, rfl, hr⟩ := hr
  cases r with
  | ok result => exact ⟨rfl, rfl, rfl, completedBy_update _ _, hr⟩
  | error ip' => exact ⟨rfl, rfl, hr, completedBy_pending _ _⟩

theorem pollCompleteWithCode_poll {ip : S.InProgress} {code : Code} (cx : Context)
    (hstate : w.self.state = .inProgress ip) (hcode : w.self.completionStatus.code = none)
    (htells : L.Tells w.self.op ip code) (hdropped : w.dropped = false) :
    Ends L.Panics (fun r => OpInv L r.2) (w.pollCompleteWithCode (some cx) (some code)) := by
  have hupdate := updateWith_ends (w := w.clearRegistered) hstate htells
  refine hupdate.bind fun r hr => ?_
  obtain ⟨r, w'⟩ := r
  obtain ⟨hsame, hdropped', hr⟩ := hr
  cases r with
  | ok result =>
    obtain ⟨hdone, hcompleted, hover, -⟩ := hr
    exact .settled hdone (hcompleted ▸ hover)
  | error ip' =>
    have hnone : w'.self.completionStatus.code = none := hsame.trans hcode
    refine (pollPending_ends (w := w'.setState (.inProgress ip')) (some cx) rfl hr.1.1
      (fun c hc => ?_) hr.2 (hdropped'.trans hdropped)).mono fun r hr => hr.2
    rw [setState_self_completionStatus, hnone] at hc
    cases hc

theorem pollCompleteWithCode_cancel {ip : S.InProgress} {code : Code}
    (hstate : w.self.state = .inProgress ip) (hcode : w.self.completionStatus.code = none)
    (htells : L.Tells w.self.op ip code) :
    Ends L.Panics (fun r =>
      match r.1 with
      | .ready result => CompletedWith L code result r.2
      | .pending => r.2.self.completionStatus.code = none ∧ ∃ ip', r.2.self.state = .inProgress ip' ∧
          L.Live r.2.self.op ip' ∧
          ∀ a, L.Answers w.self.op ip (some code) a → L.Answers r.2.self.op ip' none a)
      (w.pollCompleteWithCode none (some code)) := by
  have hupdate := updateWith_ends (w := w.clearRegistered) hstate htells
  refine hupdate.bind fun r hr => ?_
  obtain ⟨r, w'⟩ := r
  obtain ⟨hsame, -, hr⟩ := hr
  cases r with
  | ok result => exact hr
  | error ip' => exact ⟨hsame.trans hcode, ip', rfl, hr.1⟩

/-! ## Each event -/

theorem pollComplete_ends {cx : Context} {answer : Code} (hinv : OpInv L w)
    (hok : ∀ s, w.self.state = .start s → L.Starts w.self.op s answer) :
    Ends L.Panics (fun r => OpInv L r.2) (w.pollComplete cx answer) := by
  cases hinv with
  | fresh s hstate h hcalls hcode _ hdropped =>
    rw [pollComplete, hstate]
    have hcall := call_ends (w := w.setState .done) (L.start s answer _ h (hok s hstate))
    refine hcall.bind fun r hr => ?_
    obtain ⟨⟨code, ip⟩, w'⟩ := r
    obtain ⟨s', rfl, htells⟩ := hr
    exact pollCompleteWithCode_poll cx rfl hcode htells hdropped
  | live ip hstate h hcode hcalls hdropped =>
    rw [pollComplete, hstate]
    cases hpending : w.self.completionStatus.code with
    | none =>
      have hpoll := pollPending_ends (w := w.setCode none) (some cx) hstate h (by simp) hcalls hdropped
      exact hpoll.mono fun r hr => hr.2
    | some code =>
      exact pollCompleteWithCode_poll (w := w.setCode none) cx hstate rfl (hcode code hpending)
        hdropped
  | settled hstate h =>
    rw [pollComplete, hstate]
    exact .own _

/-- The result of a completed operation is turned into that of a cancellation. -/
theorem CompletedWith.cancel {code : Code} {result : S.Result} (h : CompletedWith L code result w) :
    Ends L.Panics (fun r => OpInv L r.2 ∧ r.2.self.state = .done)
      (w.call (S.resultIntoCancel result)) := by
  obtain ⟨hdone, hcompleted, -, hover⟩ := h
  refine (call_ends hover).mono fun r hr => ?_
  obtain ⟨s, hr, hs⟩ := hr
  rw [hr]
  exact ⟨.settled hdone (by rw [setOp_calls, hcompleted]; exact hs), hdone⟩

theorem cancelInProgress_ends {ip : S.InProgress} {answer : Code}
    (hstate : w.self.state = .inProgress ip) (hcode : w.self.completionStatus.code = none)
    (hlive : L.Live w.self.op ip) (hanswer : L.Answers w.self.op ip none answer) :
    Ends L.Panics (fun r => OpInv L r.2 ∧ r.2.self.state = .done) (w.cancelInProgress answer) := by
  rw [cancelInProgress, hstate]
  refine (call_ends (L.cancel ip answer _ hlive hanswer)).bind fun r hr => ?_
  obtain ⟨⟨code, ip'⟩, w'⟩ := r
  obtain ⟨s, rfl, htells⟩ := hr
  have hlook := pollCompleteWithCode_cancel
    (w := ((w.setOp s).record .cancel).setState (.inProgress ip')) rfl hcode htells
  refine hlook.bind fun r hr => ?_
  obtain ⟨r, w'⟩ := r
  cases r with
  | ready result => exact CompletedWith.cancel hr
  | pending => exact .own _

theorem cancel_ends {current : Option Wasip3Task} {answer : Code} (hinv : OpInv L w)
    (hok : w.Obeys L (.cancel current answer)) :
    Ends L.Panics (fun r => OpInv L r.2 ∧ r.2.self.state = .done) (w.cancel current answer) := by
  cases hinv with
  | fresh s hstate h hcalls hcode =>
    rw [World.cancel, hstate]
    have hcall := call_ends (w := w.setState .done) (L.startCancelled s _ h)
    refine hcall.mono fun r hr => ?_
    obtain ⟨s', hr, hover⟩ := hr
    rw [hr]
    refine ⟨.settled rfl ?_, rfl⟩
    rw [setOp_calls, setState_calls, hcalls]
    exact hover
  | live ip hstate h hcode =>
    rw [World.cancel, hstate]
    cases hpending : w.self.completionStatus.code with
    | none =>
      refine (call_ends (L.waitable ip _ h)).bind fun r hr => ?_
      obtain ⟨waitable, w'⟩ := r
      obtain ⟨s, rfl, hs⟩ := hr
      dsimp only at hs ⊢
      subst hs
      refine (unregisterWaker_ends waitable current).bind fun w' hf => ?_
      refine cancelInProgress_ends (hf.state.trans hstate) (hf.code.trans hpending)
        (hf.op ▸ h) ?_
      rw [hf.op]
      exact hpending ▸ hok ip hstate
    | some code =>
      have hlook := pollCompleteWithCode_cancel (w := w.setCode none) hstate rfl
        (hcode code hpending)
      refine hlook.bind fun r hr => ?_
      obtain ⟨r, w'⟩ := r
      cases r with
      | ready result => exact CompletedWith.cancel hr
      | pending =>
        obtain ⟨hnone, ip', hstate', hlive, hanswers⟩ := hr
        exact cancelInProgress_ends hstate' hnone hlive
          (hanswers answer (hpending ▸ hok ip hstate))
  | settled hstate h =>
    rw [World.cancel, hstate]
    exact .own _

theorem drop_ends {current : Option Wasip3Task} {answer : Code} (hinv : OpInv L w)
    (hok : w.Obeys L (.drop current answer)) :
    Ends L.Panics (fun w' => OpInv L w' ∧ w'.self.state = .done) (w.drop current answer) := by
  rw [World.drop]
  split
  · rename_i hdone
    cases hinv with
    | settled hstate h => exact ⟨.settled hstate h, hstate⟩
    | fresh s hstate =>
      rw [WaitableOperation.isDone, hstate] at hdone
      cases hdone
    | live ip hstate =>
      rw [WaitableOperation.isDone, hstate] at hdone
      cases hdone
  · refine (cancel_ends hinv hok).bind fun r hr => ?_
    obtain ⟨hinv', hdone⟩ := hr
    cases hinv' with
    | settled hstate h => exact ⟨.settled hstate h, hstate⟩
    | fresh s hstate => rw [hdone] at hstate; cases hstate
    | live ip hstate => rw [hdone] at hstate; cases hstate

theorem deliver_ends {t : Ptr} {h : Waitable} {code : Code} (hinv : OpInv L w)
    (hok : w.Obeys L (.deliver t h code)) :
    Ends L.Panics (fun w' => OpInv L w') (w.deliverWaitableEvent t h code) := by
  rw [deliverWaitableEvent]
  dsimp only
  split
  · rename_i p hp
    have hentry : w.tasks.waitables t h = some p := hp
    split
    · rename_i hours
      subst hours
      rw [cabiWake]
      split
      · cases hinv with
        | fresh s hstate hfresh hcalls hcode hn => exact absurd hentry (hn t h)
        | live ip hstate hlive hcode hcalls hdropped =>
          refine .live ip hstate hlive (fun c hc => ?_) hcalls hdropped
          obtain rfl : code = c := Option.some.inj hc
          exact L.report _ ip _ code hlive hcode (hok hentry ip hstate)
        | settled hstate hover => exact .settled hstate hover
      · exact .own _
    · cases hinv with
      | fresh s hstate hfresh hcalls hcode hn hdropped =>
        exact .fresh s hstate hfresh hcalls hcode hn.unregister hdropped
      | live ip hstate hlive hcode hcalls hdropped =>
        exact .live ip hstate hlive hcode hcalls hdropped
      | settled hstate hover => exact .settled hstate hover
  · exact .own _

theorem other_ends {ts : Tasks} (hinv : OpInv L w) (hok : w.Untouched ts) :
    OpInv L (w.setTasks ts) := by
  cases hinv with
  | fresh s hstate hfresh hcalls hcode hn hdropped =>
    exact .fresh s hstate hfresh hcalls hcode (fun t h heq => hn t h ((hok.1 t h).mp heq)) hdropped
  | live ip hstate hlive hcode hcalls hdropped =>
    exact .live ip hstate hlive hcode hcalls hdropped
  | settled hstate hover => exact .settled hstate hover

/-- The driver calls the operation only as its logic allows. -/
theorem exec_ends {C : S.Contract} {e : Event} (hinv : OpInv L w) (hallowed : allowed C w e)
    (hok : w.Obeys L e) : Ends L.Panics (fun w' => OpInv L w') (w.exec e) := by
  cases e with
  | poll cx task answer => exact (pollComplete_ends hinv hok).map
  | deliver t h code => exact deliver_ends hinv hok
  | cancel current answer => exact ((cancel_ends hinv hok).mono fun r hr => hr.1).map
  | drop current answer => exact (drop_ends hinv hok).mono fun r hr => hr.1
  | other ts => exact other_ends hinv hallowed

/-- The runs in which the host obeys `L`. -/
def hostSystem (C : S.Contract) (L : S.Logic) : System (World S) Event Panic where
  init w := (system C).init w ∧ ∀ s, w.self.state = .start s → L.Fresh w.self.op s
  allowed w e := allowed C w e ∧ w.Obeys L e
  exec := exec

theorem OpInv.initial {C : S.Contract} (h : (hostSystem C L).init w) : OpInv L w := by
  obtain ⟨⟨op, s, hself, hn, hcalls, hdropped⟩, hfresh⟩ := h
  have hstate : w.self.state = .start s := by rw [hself]; rfl
  have hcode : w.self.completionStatus.code = none := by rw [hself]; rfl
  exact .fresh s hstate (hfresh s hstate) hcalls hcode hn hdropped

theorem OpInv.of_reachable {C : S.Contract} (h : (hostSystem C L).Reachable w) : OpInv L w :=
  System.Reachable.invariant (S := hostSystem C L) (fun _ hw => OpInv.initial hw)
    (fun _ _ _ hinv hok hexec => (exec_ends hinv hok.1 hok.2).of_ok hexec) h

/-- The operation itself panics only as its logic says. -/
theorem exec_ne_op {C : S.Contract} (hinv : OpInv L w) {e : Event} (hallowed : allowed C w e)
    (hok : w.Obeys L e) {text : String} (htext : ¬ L.MayPanic text) :
    w.exec e ≠ .error (.op text) := by
  intro herr
  cases (exec_ends hinv hallowed hok).of_error herr with
  | op _ h => exact htext h

/-- An operation that completes with the code it starts with is ready at once. -/
theorem pollComplete_ready {s : S.Start} {answer code : Code} {ip : S.InProgress}
    {result : S.Result} {op op' : S.σ} (hstate : w.self.state = .start s)
    (hstart : S.start s answer w.self.op = .ok ((code, ip), op))
    (hupdate : S.inProgressUpdate ip code op = .ok (.ok result, op')) (cx : Context) :
    ∃ w', w.pollComplete cx answer = .ok (.ready result, w') := by
  have hcall : (w.setState .done).call (S.start s answer) =
      .ok ((code, ip), (w.setState .done).setOp op) := by
    have hrun : S.start s answer (w.setState .done).self.op = .ok ((code, ip), op) := hstart
    rw [call, hrun]
  have hlook : ∀ w' : World S, w'.self.op = op → w'.self.state = .inProgress ip →
      ∃ w'', w'.pollCompleteWithCode (some cx) (some code) = .ok (.ready result, w'') := by
    intro w' hop hip
    have hrun : S.inProgressUpdate ip code (w'.clearRegistered.setState .done).self.op =
        .ok (.ok result, op') := by
      rw [setState_self_op, clearRegistered, setTask_self_op, hop]
      exact hupdate
    have hstate' : w'.clearRegistered.self.state = .inProgress ip := hip
    have hcall' : (w'.clearRegistered.setState .done).call (S.inProgressUpdate ip code) =
        .ok (.ok result, (w'.clearRegistered.setState .done).setOp op') := by
      rw [call, hrun]
    rw [pollCompleteWithCode, updateWith, hstate']
    simp only [hcall']
    exact ⟨_, rfl⟩
  rw [pollComplete, hstate]
  simp only [hcall]
  exact hlook _ rfl rfl

/-! ## One operation after another -/

/-- Once an operation is dropped, the next one takes over what it worked on. -/
inductive LifeEvent (S : WaitableOp) where
  | op (e : Event)
  | next (s : S.Start) (addr : Ptr)

/-- Operations on one thing, one at a time, with what the host may do. -/
def lives (C : S.Contract) (new : S.σ → Prop) (host : World S → Event → Prop) :
    System (World S) (LifeEvent S) Panic where
  init w := (system C).init w ∧ new w.self.op
  allowed w
    | .op e => allowed C w e ∧ host w e
    | .next _ addr => w.dropped = true ∧ w.tasks.Nowhere addr
  exec w
    | .op e => w.exec e
    | .next s addr => .ok ⟨.new w.self.op s, addr, w.tasks, [], false⟩

/-- If an operation leaves things as the next one expects them, they always are. -/
theorem OpInv.of_lives {C : S.Contract} {new : S.σ → Prop} (hnew : ∀ σ s, new σ → L.Fresh σ s)
    (hnext : ∀ σ c s, L.Over σ c → L.Fresh σ s)
    (h : (lives C new fun w e => w.Obeys L e).Reachable w) : OpInv L w := by
  refine System.Reachable.invariant (fun w hw => ?_) (fun w e w' hinv hok hexec => ?_) h
  · obtain ⟨hinit, hop⟩ := hw
    exact OpInv.initial ⟨hinit, fun s _ => hnew _ s hop⟩
  · cases e with
    | op e => exact (exec_ends hinv hok.1 hok.2).of_ok hexec
    | next s addr =>
      obtain ⟨hdropped, hn⟩ := hok
      cases hexec
      cases hinv with
      | fresh s₀ _ _ _ _ _ hd => rw [hd] at hdropped; cases hdropped
      | live ip _ _ _ _ hd => rw [hd] at hdropped; cases hdropped
      | settled hstate hover => exact .fresh s rfl (hnext _ _ s hover) rfl rfl hn rfl

end World

end Rt

end WitBindgen
