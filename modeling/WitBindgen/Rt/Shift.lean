import WitBindgen.Rt.Registration

/-!
# What an operation does to the maps of the tasks

A call of an operation changes the maps and sets at most under the waitable that the
operation waits for. Afterwards the waitable is in the set of the task whose map has it,
and in none otherwise; and where the operation waits in a task that can be cloned, it
has a clone of that task.
-/

namespace WitBindgen

namespace Rt

namespace Tasks

/-- The waitable is in the set of exactly the task whose map has it. -/
def LinkedAt (ts : Tasks) (h : Waitable) : Prop := ∀ t, ts.joined h = some t ↔ (ts.waitables t h).isSome

/-- Nothing changes under the waitable. -/
def SameAt (ts ts' : Tasks) (h : Waitable) : Prop :=
  (∀ t, ts'.waitables t h = ts.waitables t h) ∧ ts'.joined h = ts.joined h

variable {ts : Tasks} {p t : Ptr} {h h' : Waitable}

theorem SameAt.linked {ts' : Tasks} (hs : ts.SameAt ts' h) (hl : ts.LinkedAt h) : ts'.LinkedAt h := fun t => by
  rw [hs.1, hs.2]
  exact hl t

theorem unregister_sameAt (hne : h' ≠ h) : ts.SameAt (ts.waitableUnregister t h).2 h' :=
  ⟨fun t' => by rw [unregister_waitables, if_neg fun heq => hne heq.2], Function.update_of_ne hne ..⟩

theorem register_sameAt (ts : Tasks) (p t : Ptr) (hne : h' ≠ h) : ts.SameAt (ts.waitableRegister t h p).2 h' :=
  ⟨fun t' => by rw [register_waitables, if_neg fun heq => hne heq.2], Function.update_of_ne hne ..⟩

/-- The pointer of a waitable in no set is in no map. -/
theorem Reserved.linkedAt_none (hres : ts.Reserved p h) (hn : ts.Nowhere p) (hj : ts.joined h = none) :
    ts.LinkedAt h := fun t => by
  rw [hj]
  refine iff_of_false nofun fun hsome => ?_
  obtain ⟨q, hq⟩ := Option.isSome_iff_exists.mp hsome
  exact hn t h (hres t q hq ▸ hq)

theorem Reserved.linkedAt_some (hres : ts.Reserved p h) (ho : ts.OnlyAt p t h) (hj : ts.joined h = some t) :
    ts.LinkedAt h := fun t' => by
  rw [hj]
  constructor
  · intro heq
    cases heq
    rw [ho.entry]
    rfl
  · intro hsome
    obtain ⟨q, hq⟩ := Option.isSome_iff_exists.mp hsome
    obtain rfl := hres t' q hq
    rw [((ho t' h).mp hq).1]

end Tasks

namespace World

variable {S : WaitableOp} {w w' : World S} {h : Waitable} {t : Ptr}

/-- The operation is in flight and waits for `h`. -/
def Ours (w : World S) (h : Waitable) : Prop :=
  ∃ ip, w.self.state = .inProgress ip ∧ S.waitable w.self.op ip = some h

/-- `h` is what the host names when it answers the start of the operation. -/
def Starts (w : World S) (answer : Code) (h : Waitable) : Prop :=
  ∃ s c ip s', w.self.state = .start s ∧ S.start s answer w.self.op = .ok ((c, ip), s') ∧ S.waitable s' ip = some h

/-- The operation waits for `h`, or will when it is started. -/
def Named (w : World S) (answer : Code) (h : Waitable) : Prop := w.Ours h ∨ w.Starts answer h

/-- A waiting operation has a clone of its task. -/
def Held (w : World S) : Prop := w.self.task = none → w.tasks.Nowhere w.addr

/-- What changes in the maps changes under the waitable of the operation, one of `names`,
where only its pointer can be. -/
structure Shift (w w' : World S) (names : Waitable → Prop) (h : Waitable) : Prop where
  named : names h
  other : ∀ h', h' ≠ h → w.tasks.SameAt w'.tasks h'
  linked : w'.tasks.LinkedAt h
  reserved : w'.tasks.Reserved w.addr h

/-- How a call leaves the maps, and the operation. -/
structure Settles (w w' : World S) (names : Waitable → Prop) : Prop where
  tasks : w'.tasks = w.tasks ∨ ∃ h, w.Shift w' names h
  ours : ∀ h, w'.Ours h → names h
  held : w'.Held
  addr : w'.addr = w.addr

theorem not_ours_of_over (hover : w.Over) : ¬w.Ours h := fun ⟨ip, hstate, _⟩ => by
  rw [hover.state] at hstate
  cases hstate

theorem Over.held (hover : w.Over) : w.Held := fun _ => hover.nowhere

/-! ## Waiting -/

/-- The operation waits in the task that polls. -/
structure Waits (w w' : World S) (task : Wasip3Task) (h : Waitable) : Prop where
  other : ∀ h', h' ≠ h → w.tasks.SameAt w'.tasks h'
  linked : w'.tasks.LinkedAt h
  reserved : w'.tasks.Reserved w.addr h
  task : w'.self.task = some ⟨task.ptr, some h⟩
  op : w'.self.op = w.self.op
  state : w'.self.state = w.self.state
  addr : w'.addr = w.addr

theorem rememberTask_sameAt (task : Wasip3Task)
    (hwhere : (w.tasks.Nowhere w.addr ∧ w.Cleared) ∨ ∃ t, w.WaitingIn t h ∧
      (w.self.task = none → t = task.ptr)) {h' : Waitable} (hne : h' ≠ h) :
    w.tasks.SameAt (w.rememberTask h task).tasks h' := by
  rw [rememberTask]
  split
  · rename_i prev hprev
    split
    · exact ⟨fun _ => rfl, rfl⟩
    · simp only [setTask_tasks, setTasks_tasks, Tasks.dropCabiTask]
      split
      · rename_i h₀ hreg
        have hsame : h₀ = h := by
          rcases hwhere with ⟨-, hc⟩ | ⟨t, ⟨-, htask⟩, -⟩
          · have hnone := hc prev hprev
            rw [hreg] at hnone
            cases hnone
          · rw [hprev] at htask
            rcases htask with htask | htask
            · cases htask
            · cases htask
              exact (Option.some.inj hreg).symm
        subst hsame
        exact Tasks.unregister_sameAt hne
      · exact ⟨fun _ => rfl, rfl⟩
  · exact ⟨fun _ => rfl, rfl⟩

theorem registerWaker_waits {cx : Waker} {task : Wasip3Task}
    (hcode : w.self.completionStatus.code = none) (hversion : wasip3TaskV2 ≤ task.version)
    (hwhere : (w.tasks.Nowhere w.addr ∧ w.Cleared) ∨ ∃ t, w.WaitingIn t h ∧
      (w.self.task = none → t = task.ptr)) (hres : w.tasks.Reserved w.addr h)
    (hok : w.registerWaker h ⟨cx, some task⟩ = .ok w') : w.Waits w' task h := by
  have hv1 : wasip3TaskV1 ≤ task.version := Nat.le_trans (by decide) hversion
  obtain ⟨hframe, hwait, hres', -⟩ :=
    (registerWaker_spec (w := w) cx task hcode hv1 (fun _ => hversion) hwhere hres).of_ok hok
  have hrem := rememberTask_spec (w := w.setWaker (some cx)) (h := h) task hwhere hres
  have hsame := fun h' (hne : h' ≠ h) => rememberTask_sameAt (w := w.setWaker (some cx)) task hwhere hne
  have hend : w'.tasks.joined h = some task.ptr ∧ w'.self.task = some ⟨task.ptr, some h⟩ ∧
      ∀ h', h' ≠ h → w.tasks.SameAt w'.tasks h' := by
    rw [registerWaker, hcode, if_neg (by simp)] at hok
    simp only [if_neg (Nat.not_lt.mpr hv1), if_pos hversion] at hok
    split at hok
    · cases hok
      refine ⟨Function.update_self .., hrem.2.2.1, fun h' hne => ?_⟩
      have h₁ := hsame h' hne
      have h₂ := ((w.setWaker (some cx)).rememberTask h task).tasks.register_sameAt
        ((w.setWaker (some cx)).rememberTask h task).addr task.ptr hne
      exact ⟨fun t => (h₂.1 t).trans (h₁.1 t), h₂.2.trans h₁.2⟩
    · cases hok
  exact ⟨hend.2.2, hres'.linkedAt_some (hframe.addr ▸ hwait.1) hend.1, hres', hend.2.1, hframe.op, hframe.state,
    hframe.addr⟩

variable (C : S.Contract)

include C in
theorem pollPending_waits {ip : S.InProgress} {cx : Waker} {task : Wasip3Task}
    (hstate : w.self.state = .inProgress ip) (hcode : w.self.completionStatus.code = none)
    (hversion : wasip3TaskV2 ≤ task.version)
    (hres : ∀ h, S.waitable w.self.op ip = some h → w.tasks.Reserved w.addr h)
    (hwhere : ∀ h, S.waitable w.self.op ip = some h → (w.tasks.Nowhere w.addr ∧ w.Cleared) ∨
      ∃ t, w.WaitingIn t h ∧ (w.self.task = none → t = task.ptr)) :
    Ends (fun _ => True) (fun r => ∃ h, S.waitable w.self.op ip = some h ∧ w.Waits r.2 task h)
      (w.pollPending (some ⟨cx, some task⟩)) := by
  rw [pollPending, hstate]
  refine ((call_waitable C ip).mono_error fun _ _ => trivial).bind fun r hr => ?_
  obtain ⟨h, w₁⟩ := r
  obtain ⟨hwaitable, rfl⟩ := hr
  dsimp only at hstate hcode hres hwhere hwaitable ⊢
  cases hreg : w₁.registerWaker h ⟨cx, some task⟩ with
  | error e => trivial
  | ok w' =>
    exact ⟨h, hwaitable, registerWaker_waits hcode hversion (hwhere h hwaitable) (hres h hwaitable) hreg⟩

/-- How a look at a code in a poll leaves the maps. -/
def Looks (w : World S) (ip : S.InProgress) (task : Wasip3Task) (r : Poll S.Result × World S) : Prop :=
  r.2.addr = w.addr ∧
    match r.1 with
    | .ready _ => r.2.tasks = w.tasks
    | .pending => ∃ h, S.waitable w.self.op ip = some h ∧ (∀ h', h' ≠ h → w.tasks.SameAt r.2.tasks h') ∧
        r.2.tasks.LinkedAt h ∧ r.2.tasks.Reserved w.addr h ∧ r.2.self.task = some ⟨task.ptr, some h⟩ ∧
        ∃ ip', r.2.self.state = .inProgress ip' ∧ S.waitable r.2.self.op ip' = some h

include C in
theorem updateWith_tasks {ip : S.InProgress} (code : Code) (hw : w.self.state = .inProgress ip) :
    Ends (fun _ => True) (fun r => r.2.tasks = w.tasks ∧
      ∀ ip', r.1 = .error ip' → S.waitable r.2.self.op ip' = S.waitable w.self.op ip)
      (w.clearRegistered.updateWith code) := by
  have hstate : w.clearRegistered.self.state = .inProgress ip := hw
  rw [updateWith, hstate]
  refine ((call_spec _).mono_error fun _ _ => trivial).bind fun r hr => ?_
  obtain ⟨s, hrun, hr₂⟩ := hr
  obtain ⟨r, w₁⟩ := r
  dsimp only at hrun hr₂ ⊢
  subst hr₂
  refine ⟨rfl, fun ip' heq => ?_⟩
  dsimp only at heq
  subst heq
  exact C.update_waitable ip code _ ip' s hrun

include C in
theorem pollCompleteWithCode_looks {ip : S.InProgress} {cx : Waker} {task : Wasip3Task} (code : Code)
    (hw : w.Detached ip) (hversion : wasip3TaskV2 ≤ task.version) :
    Ends (fun _ => True) (w.Looks ip task) (w.pollCompleteWithCode (some ⟨cx, some task⟩) (some code)) := by
  refine (((updateWith_spec C code hw).and (updateWith_tasks C code hw.state)).mono_error fun _ _ => trivial).bind
    fun r hr => ?_
  obtain ⟨⟨haddr, -, -, hover, -, hr⟩, htasks, hsame⟩ := hr
  obtain ⟨r, w₁⟩ := r
  cases r with
  | ok result => exact ⟨haddr, htasks⟩
  | error ip' =>
    obtain ⟨-, hdetached⟩ := hr
    dsimp only at haddr htasks hover hdetached hsame ⊢
    cases hp : (w₁.setState (.inProgress ip')).pollPending (some ⟨cx, some task⟩) with
    | error e => trivial
    | ok r =>
      obtain ⟨r, w'⟩ := r
      have hpend : r = .pending := ((pollPending_spec C hdetached.state hdetached.code
        ⟨Nat.le_trans (by decide) hversion, fun _ => hversion⟩ hdetached.reserved
        fun h _ => Or.inl ⟨hdetached.nowhere, hover.cleared⟩).of_ok hp).1
      subst hpend
      obtain ⟨h, hh, hwaits⟩ := (pollPending_waits C hdetached.state hdetached.code hversion hdetached.reserved
        fun h _ => Or.inl ⟨hdetached.nowhere, hover.cleared⟩).of_ok hp
      have hop : w'.self.op = w₁.self.op := hwaits.op
      have hother : ∀ h', h' ≠ h → w.tasks.SameAt w'.tasks h' := fun h' hne => by
        have hs := hwaits.other h' hne
        rw [setState_tasks, htasks] at hs
        exact hs
      refine ⟨hwaits.addr.trans haddr, h, (hsame ip' rfl).symm.trans hh, hother, hwaits.linked, ?_,
        hwaits.task, ip', hwaits.state, ?_⟩
      · have hres : w'.tasks.Reserved w₁.addr h := hwaits.reserved
        rw [haddr] at hres
        exact hres
      · rw [hop]
        exact hh

/-! ## The calls -/

theorem Looks.settles {w₀ : World S} {ip : S.InProgress} {task : Wasip3Task} {names : Waitable → Prop}
    {r : Poll S.Result × World S} (hl : w.Looks ip task r) (htasks : w.tasks = w₀.tasks) (haddr : w.addr = w₀.addr)
    (hnamed : ∀ h, S.waitable w.self.op ip = some h → names h) (hready : ∀ a, r.1 = .ready a → r.2.Over) :
    w₀.Settles r.2 names := by
  obtain ⟨r, w'⟩ := r
  obtain ⟨ha, hr⟩ := hl
  cases r with
  | ready a =>
    have hover : w'.Over := hready a rfl
    exact ⟨Or.inl (hr.trans htasks), fun h hours => absurd hours (not_ours_of_over hover), hover.held, ha.trans haddr⟩
  | pending =>
    obtain ⟨h, hh, hother, hlinked, hres, htask, ip', hstate, hwait⟩ := hr
    have hours : ∀ h', w'.Ours h' → h' = h := by
      rintro h' ⟨ip₁, hs, hw⟩
      have heq : WaitableOperationState.inProgress ip₁ = .inProgress ip' := hs.symm.trans hstate
      cases heq
      exact Option.some.inj (hw.symm.trans hwait)
    refine ⟨Or.inr ⟨h, hnamed h hh, ?_, hlinked, haddr ▸ hres⟩, fun h' hh' => hours h' hh' ▸ hnamed h hh,
      fun hnone => ?_, ha.trans haddr⟩
    · rw [← htasks]
      exact hother
    · rw [htask] at hnone
      cases hnone

theorem poll_settles {cx : Waker} {task : Wasip3Task} {answer : Code} (hinv : w.Inv)
    (hok : allowed C w (.poll cx task answer)) (hconf : w.Confined (.poll cx task answer))
    (hversion : wasip3TaskV2 ≤ task.version) {r : Poll S.Result × World S}
    (hrun : w.pollComplete ⟨cx, some task⟩ answer = .ok r) : w.Settles r.2 (w.Named answer) := by
  have hpolls : w.PollsIn task := ⟨hok.2.2.1, hconf.1⟩
  have hready : ∀ {w₁ : World S} {ip : S.InProgress} {code : Code}, w₁.Detached ip → w₁.PollsIn task →
      w₁.pollCompleteWithCode (some ⟨cx, some task⟩) (some code) = .ok r → ∀ a, r.1 = .ready a → r.2.Over := by
    intro w₁ ip code hdet hp hr a ha
    obtain ⟨-, -, hr⟩ := (pollCompleteWithCode_some C code hdet hp).of_ok hr
    rw [ha] at hr
    exact hr.1
  obtain ⟨hdropped, hdone, hv1, hfresh⟩ := hok
  cases hinv with
  | fresh s hstate h =>
    rw [pollComplete, hstate] at hrun
    cases hstart : S.start s answer w.self.op with
    | error text =>
      have hcall : (w.setState .done).call (S.start s answer) = .error (.op text) := by
        rw [call, setState_self_op, hstart]
      dsimp only at hrun
      rw [hcall] at hrun
      cases hrun
    | ok res =>
      obtain ⟨⟨code, ip⟩, s'⟩ := res
      have hcall : (w.setState .done).call (S.start s answer) = .ok ((code, ip), (w.setState .done).setOp s') := by
        rw [call, setState_self_op, hstart]
      dsimp only at hrun
      rw [hcall] at hrun
      have hdet : ((((w.setState .done).setOp s').record .start).setState (.inProgress ip)).Detached ip := {
        state := rfl
        nowhere := h.nowhere
        code := h.code
        reserved := fun h' hh t q hq => by
          have hfree : w.tasks.waitables t h' = none := hfresh s hstate code ip s' hstart h' hh t
          exact absurd (hfree.symm.trans hq) (by simp) }
      exact ((pollCompleteWithCode_looks C code hdet hversion).of_ok hrun).settles rfl rfl
        (fun h' hh => Or.inr ⟨s, code, ip, s', hstate, hstart, hh⟩) (hready hdet hpolls hrun)
  | inFlight ip h hflight hcalls =>
    have hnamed : ∀ h', S.waitable w.self.op ip = some h' → w.Named answer h' := fun h' hh => Or.inl ⟨ip, hflight.state, hh⟩
    have hplace : ∀ h', S.waitable w.self.op ip = some h' → h' = h := fun h' hh =>
      Option.some.inj (hh.symm.trans hflight.waitable)
    rw [pollComplete, hflight.state] at hrun
    rcases hflight.place with ⟨t, hwait, hcode, -⟩ | ⟨hn, hcode⟩
    · rw [hcode] at hrun
      obtain ⟨h', hh, hwaits⟩ := (pollPending_waits (w := w.setCode none) C hflight.state rfl hversion
        (fun h' hh => hplace h' hh ▸ hflight.reserved)
        (fun h' hh => Or.inr ⟨t, hplace h' hh ▸ hwait, fun hnone =>
          hconf.2 hnone t h hwait.1.entry⟩)).of_ok hrun
      obtain rfl := hplace h' hh
      refine ⟨Or.inr ⟨h', hnamed h' hh, hwaits.other, hwaits.linked, hwaits.reserved⟩, fun h₁ hours => ?_, fun hnone => ?_,
        hwaits.addr⟩
      · obtain ⟨ip₁, hs, hw⟩ := hours
        have heq : WaitableOperationState.inProgress ip₁ = .inProgress ip := (hs.symm.trans hwaits.state).trans hflight.state
        cases heq
        rw [hwaits.op] at hw
        exact hnamed h₁ hw
      · rw [hwaits.task] at hnone
        cases hnone
    · obtain ⟨code, hcode⟩ := Option.isSome_iff_exists.mp hcode
      rw [hcode] at hrun
      have hdet : (w.setCode none).Detached ip := {
        state := hflight.state
        nowhere := hn
        code := rfl
        reserved := fun h' hh => hplace h' hh ▸ hflight.reserved }
      exact ((pollCompleteWithCode_looks C code hdet hversion).of_ok hrun).settles rfl rfl hnamed
        (hready hdet hpolls hrun)
  | settled hover => rw [hover.isDone] at hdone; cases hdone

theorem pollCompleteWithCode_tasks {ip : S.InProgress} (code : Code) (hw : w.self.state = .inProgress ip) :
    Ends (fun _ => True) (fun r => r.2.tasks = w.tasks ∧ r.2.addr = w.addr)
      (w.pollCompleteWithCode none (some code)) := by
  have hstate : w.clearRegistered.self.state = .inProgress ip := hw
  rw [pollCompleteWithCode, updateWith, hstate]
  refine Ends.bind (P := fun r => r.2.tasks = w.tasks ∧ r.2.addr = w.addr) ?_ fun r hr => ?_
  · refine ((call_spec _).mono_error fun _ _ => trivial).bind fun r hr => ?_
    obtain ⟨s, -, hr₂⟩ := hr
    obtain ⟨r, w₁⟩ := r
    dsimp only at hr₂ ⊢
    subst hr₂
    exact ⟨rfl, rfl⟩
  · obtain ⟨r, w₁⟩ := r
    cases r with
    | ok result => exact hr
    | error ip' => exact hr

theorem cancelInProgress_tasks {ip : S.InProgress} {answer : Code} (hw : w.self.state = .inProgress ip) :
    Ends (fun _ => True) (fun r => r.2.tasks = w.tasks ∧ r.2.addr = w.addr) (w.cancelInProgress answer) := by
  rw [cancelInProgress, hw]
  refine ((call_spec _).mono_error fun _ _ => trivial).bind fun r hr => ?_
  obtain ⟨s, -, hr₂⟩ := hr
  obtain ⟨⟨code, ip'⟩, w₁⟩ := r
  dsimp only at hr₂ ⊢
  subst hr₂
  refine (pollCompleteWithCode_tasks (w := ((w.setOp s).record .cancel).setState (.inProgress ip')) code rfl).bind
    fun r hr => ?_
  obtain ⟨r, w₁⟩ := r
  cases r with
  | ready result =>
    refine ((call_spec _).mono_error fun _ _ => trivial).mono fun r' hr' => ?_
    obtain ⟨s', -, hr'⟩ := hr'
    rw [hr']
    exact hr
  | pending => trivial

theorem unregisterWaker_shift {current : Option Wasip3Task} (hwait : w.WaitingIn t h)
    (hres : w.tasks.Reserved w.addr h) (hversion : ∀ task ∈ current, wasip3TaskV1 ≤ task.version)
    (hcurrent : w.self.task = none → ∃ task ∈ current, task.ptr = t) (hours : w.Ours h)
    (hok : w.unregisterWaker h current = .ok w') : w.Shift w' w.Ours h := by
  obtain ⟨hframe, hn, hres'⟩ := (unregisterWaker_spec hwait hres hversion hcurrent).of_ok hok
  have htasks : ∃ t', w'.tasks = (w.tasks.waitableUnregister t' h).2 := by
    rw [unregisterWaker.eq_def] at hok
    dsimp only at hok
    split at hok
    · split at hok
      · cases hok
        exact ⟨_, rfl⟩
      · cases hok
    · split at hok
      · cases hok
      · split at hok
        · cases hok
        · split at hok
          · cases hok
            exact ⟨_, rfl⟩
          · cases hok
  obtain ⟨t', heq⟩ := htasks
  refine ⟨hours, fun h' hne => ?_, hres'.linkedAt_none hn ?_, hres'⟩
  · rw [heq]
    exact Tasks.unregister_sameAt hne
  · rw [heq]
    exact Function.update_self ..

theorem cancel_settles {current : Option Wasip3Task} {answer : Code} (hinv : w.Inv)
    (hok : allowed C w (.cancel current answer)) (hconf : w.Confined (.cancel current answer))
    {r : S.Cancel × World S} (hrun : w.cancel current answer = .ok r) : w.Settles r.2 w.Ours ∧ r.2.Over := by
  have hover : r.2.Over := ((cancel_spec C hinv hok hconf).of_ok hrun).1
  suffices hend : (r.2.tasks = w.tasks ∨ ∃ h, w.Shift r.2 w.Ours h) ∧ r.2.addr = w.addr from
    ⟨⟨hend.1, fun h hours => absurd hours (not_ours_of_over hover), hover.held, hend.2⟩, hover⟩
  obtain ⟨-, hdone, hversion, -⟩ := hok
  cases hinv with
  | fresh s hstate h =>
    rw [cancel, hstate] at hrun
    obtain ⟨s', -, hr⟩ := (call_spec _).of_ok hrun
    rw [hr]
    exact ⟨Or.inl rfl, rfl⟩
  | inFlight ip h hflight hcalls =>
    rw [cancel, hflight.state] at hrun
    rcases hflight.place with ⟨t, hwait, hcode, -⟩ | ⟨hn, hcode⟩
    · rw [hcode] at hrun
      have hkeep : Ends (fun _ => True) (fun r => (∃ h, w.Shift r.2 w.Ours h) ∧ r.2.addr = w.addr)
          (do
            let x ← w.call (S.inProgressWaitable ip)
            let w ← x.2.unregisterWaker x.1 current
            w.cancelInProgress answer) := by
        refine ((call_waitable C ip).mono_error fun _ _ => trivial).bind fun r hr => ?_
        obtain ⟨h', w₀⟩ := r
        obtain ⟨hwaitable, rfl⟩ := hr
        obtain rfl := Option.some.inj (hwaitable.symm.trans hflight.waitable)
        dsimp only at *
        cases hun : w₀.unregisterWaker h' current with
        | error e => trivial
        | ok w₁ =>
          have hcurrent : w₀.self.task = none → ∃ task ∈ current, task.ptr = t := fun hnone =>
            hconf hnone t h' hwait.1.entry
          have hframe := ((unregisterWaker_spec hwait hflight.reserved hversion hcurrent).of_ok hun).1
          have hshift := unregisterWaker_shift hwait hflight.reserved hversion hcurrent
            ⟨ip, hflight.state, hflight.waitable⟩ hun
          refine (cancelInProgress_tasks (hframe.state.trans hflight.state)).mono fun r hr => ?_
          refine ⟨⟨h', hshift.named, ?_, ?_, ?_⟩, hr.2.trans hframe.addr⟩ <;> rw [hr.1]
          · exact hshift.other
          · exact hshift.linked
          · exact hshift.reserved
      exact (hkeep.of_ok hrun).imp Or.inr id
    · obtain ⟨code, hcode⟩ := Option.isSome_iff_exists.mp hcode
      rw [hcode] at hrun
      have hdet : (w.setCode none).Detached ip := {
        state := hflight.state
        nowhere := hn
        code := rfl
        reserved := fun h' hh => by
          obtain rfl := Option.some.inj (hflight.waitable.symm.trans hh)
          exact hflight.reserved }
      refine (Ends.of_ok (E := fun _ => True) (P := fun r => r.2.tasks = w.tasks ∧ r.2.addr = w.addr)
        ?_ hrun).imp Or.inl id
      refine (((pollCompleteWithCode_none C code hdet).and
        (pollCompleteWithCode_tasks code hdet.state)).mono_error fun _ _ => trivial).bind fun r hr => ?_
      obtain ⟨⟨-, -, hlook⟩, hsame⟩ := hr
      obtain ⟨r, w₁⟩ := r
      cases r with
      | ready result =>
        refine ((call_spec _).mono_error fun _ _ => trivial).mono fun r' hr' => ?_
        obtain ⟨s', -, hr'⟩ := hr'
        rw [hr']
        exact hsame
      | pending =>
        obtain ⟨-, ⟨ip', hdet'⟩, -⟩ := hlook
        refine (cancelInProgress_tasks hdet'.state).mono fun r' hr' => ?_
        exact ⟨hr'.1.trans hsame.1, hr'.2.trans hsame.2⟩
  | settled hover => rw [hover.isDone] at hdone; cases hdone

theorem Over.dropFields_tasks (hover : w.Over) : w.dropFields.tasks = w.tasks := by
  rw [dropFields]
  cases htask : w.self.task with
  | none => rfl
  | some t =>
    have hnone : t.registered = none := hover.cleared t htask
    simp only [Tasks.dropCabiTask, hnone]

theorem drop_settles {current : Option Wasip3Task} {answer : Code} (hinv : w.Inv)
    (hok : allowed C w (.drop current answer)) (hconf : w.Confined (.drop current answer))
    (hrun : w.drop current answer = .ok w') : w.Settles w' w.Ours := by
  have hover' : ∀ {w₁ : World S}, w₁.Over → ∀ h, ¬w₁.dropFields.Ours h := fun hover h =>
    not_ours_of_over (dropFields_over hover)
  rw [drop] at hrun
  split at hrun
  · cases hrun
    obtain ⟨hover, -⟩ := hinv.of_isDone ‹_›
    exact ⟨Or.inl hover.dropFields_tasks, fun h hours => absurd hours (hover' hover h), (dropFields_over hover).held, rfl⟩
  · have hdone : w.self.isDone = false := Bool.not_eq_true _ ▸ ‹¬_›
    cases hc : w.cancel current answer with
    | error e =>
      rw [hc] at hrun
      cases hrun
    | ok r =>
      rw [hc] at hrun
      cases hrun
      obtain ⟨hsettles, hover⟩ := cancel_settles C hinv ⟨hok.1, hdone, hok.2⟩ hconf hc
      refine ⟨?_, fun h hours => absurd hours (hover' hover h), (dropFields_over hover).held, hsettles.addr⟩
      refine hsettles.tasks.imp hover.dropFields_tasks.trans (Exists.imp fun h hs => ⟨hs.named, ?_, ?_, ?_⟩) <;>
        rw [hover.dropFields_tasks]
      · exact hs.other
      · exact hs.linked
      · exact hs.reserved

end World

end Rt

end WitBindgen
