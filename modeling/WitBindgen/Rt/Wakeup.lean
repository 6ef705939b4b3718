import WitBindgen.Rt.Executor

/-!
# Waking a task

What a sleep state promises to whoever invokes a waker: a task that sleeps has a read
of its wakeup stream in flight, unless the host cancelled it. A wake that finds the task
awake is seen by the end of the turn. Each step changes one task, and the sets only
under the handle of an event or of the wakeup stream of that task. As in the executor the
features `inter-task-wakeup` and `async-spawn` are on.
-/

namespace WitBindgen

namespace Rt

namespace Executor

/-- A wake after the last poll leads to another one. -/
def TaskState.Serviced (x : TaskState) : Prop :=
  match x.phase with
  | .delivered _ | .returned .yield => True
  | .polling | .polled _ => x.sleepState = .woken
  | .returned .wait => x.sleepState = .woken ∧ x.streamReading = true ∧ x.copy = .completed
  | .none | .returned .exit | .dropping | .dropped => False

/-- No future is left to be polled, or the host has cancelled the task. -/
def TaskState.Finished (x : TaskState) : Prop :=
  x.cancelled = true ∨ x.tasks = 0 ∧ (x.phase = .returned .wait ∨ x.phase = .dropping ∨ x.phase = .dropped)

structure TaskState.Inv (x : TaskState) : Prop where
  sleeping : x.sleepState = .sleeping →
    (x.phase = .returned .wait ∧ x.streamReading = true ∧ x.copy = .reading) ∨ x.phase = .dropping ∨ x.phase = .dropped
  reading : x.streamReading = true → x.stream ≠ none ∧ x.writer = true ∧
    (x.phase = .returned .wait ∨ x.phase = .delivered false) ∧
    (x.copy = .reading ∧ x.writes = 0 ∨ x.copy = .completed ∧ x.writes = 1)
  idle : x.streamReading = false → x.copy ≠ .reading ∧ x.copy ≠ .completed
  stream : x.stream ≠ none → x.writer = true ∧ x.copy ≠ .dropped
  writer : x.writer = true → x.stream ≠ none ∨ x.phase = .dropped
  asleep : x.phase = .returned .wait → x.copy = .reading → x.sleepState = .sleeping
  waits : x.phase = .returned .wait → x.tasks = 0 ∨ x.streamReading = true
  writes : x.writes ≤ 1
  dropping : x.phase = .dropping ∨ x.phase = .dropped → x.tasks = 0 ∨ x.cancelled = true
  code : x.phase ≠ .returned .exit
  serviced : x.woken = true → x.Serviced ∨ x.Finished

namespace TaskState

variable {x x' : TaskState}

theorem Inv.new : new.Inv := by
  constructor <;> simp [TaskState.new]

/-- Whoever invokes a waker leaves the task to be polled. -/
theorem Inv.wake (hx : x.Inv) (hstarted : x.phase ≠ .none) (hok : x.wake = .ok x') : x'.Inv := by
  have hawake : x.sleepState ≠ .sleeping → ({ x with sleepState := .woken, woken := true } : TaskState).Inv := by
    intro hne
    have hcopy : x.phase = .returned .wait → x.copy ≠ .reading := fun hp hc => hne (hx.asleep hp hc)
    refine { hx with sleeping := nofun, asleep := fun hp hc => absurd hc (hcopy hp), serviced := fun _ => ?_ }
    have hover : x.phase = .dropping ∨ x.phase = .dropped → x.Finished := fun hp =>
      (hx.dropping hp).symm.imp id fun hnone => ⟨hnone, Or.inr hp⟩
    rw [Serviced]
    split
    · exact Or.inl trivial
    · exact Or.inl trivial
    · exact Or.inl rfl
    · exact Or.inl rfl
    · rename_i hp
      rcases hx.waits hp with hnone | hread
      · exact Or.inr (Or.inr ⟨hnone, Or.inl hp⟩)
      · exact Or.inl ⟨rfl, hread, ((hx.reading hread).2.2.2.resolve_left fun h => hcopy hp h.1).1⟩
    · rename_i hp
      exact absurd hp hstarted
    · rename_i hp
      exact absurd hp hx.code
    · rename_i hp
      exact Or.inr (hover (Or.inl hp))
    · rename_i hp
      exact Or.inr (hover (Or.inr hp))
  rw [TaskState.wake] at hok
  split at hok
  · rename_i hs
    cases hok
    exact hawake (by rw [hs]; nofun)
  · rename_i hs
    cases hok
    exact hawake (by rw [hs]; nofun)
  · rename_i hs
    split at hok
    · split at hok
      · rename_i hcopy
        cases hok
        have hread : x.streamReading = true := by
          cases hr : x.streamReading with
          | true => rfl
          | false => exact absurd hcopy (hx.idle hr).1
        obtain ⟨hstream, hwriter, hphase, hwrites⟩ := hx.reading hread
        have hzero : x.writes = 0 := by
          rcases hwrites with h | h
          · exact h.2
          · rw [hcopy] at h
            cases h.1
        have hone : x.writes + 1 = 1 := congrArg (· + 1) hzero
        exact {
          sleeping := nofun
          reading := fun _ => ⟨hstream, hwriter, hphase, Or.inr ⟨rfl, hone⟩⟩
          idle := fun h => by
            rw [hread] at h
            cases h
          stream := fun _ => ⟨hwriter, nofun⟩
          writer := hx.writer
          asleep := fun _ h => nomatch h
          waits := hx.waits
          writes := Nat.le_of_eq hone
          dropping := hx.dropping
          code := hx.code
          serviced := fun _ => by
            rcases hphase with hp | hp <;> rw [Serviced, hp]
            · exact Or.inl ⟨rfl, hread, rfl⟩
            · exact Or.inl trivial }
      · cases hok
    · cases hok

/-- A task without a read in flight. -/
theorem Inv.of_idle (hreading : x.streamReading = false) (hcopy : x.copy ≠ .reading ∧ x.copy ≠ .completed)
    (hsleep : x.sleepState = .sleeping → x.phase = .dropping ∨ x.phase = .dropped)
    (hstream : x.stream ≠ none → x.writer = true ∧ x.copy ≠ .dropped)
    (hwriter : x.writer = true → x.stream ≠ none ∨ x.phase = .dropped) (hwrites : x.writes ≤ 1)
    (hphase : x.phase = .returned .wait → x.tasks = 0) (hcode : x.phase ≠ .returned .exit)
    (hover : x.phase = .dropping ∨ x.phase = .dropped → x.tasks = 0 ∨ x.cancelled = true)
    (hserviced : x.woken = true → x.Serviced ∨ x.Finished) : x.Inv where
  sleeping h := Or.inr (hsleep h)
  reading h := by
    rw [hreading] at h
    cases h
  idle _ := hcopy
  stream := hstream
  writer := hwriter
  asleep _ h := absurd h hcopy.1
  waits h := Or.inl (hphase h)
  writes := hwrites
  dropping := hover
  code := hcode
  serviced := hserviced

/-- Outside of a wait and of the start of a callback nothing is read. -/
theorem Inv.not_reading (hx : x.Inv) (hwait : x.phase ≠ .returned .wait) (hstart : x.phase ≠ .delivered false) :
    x.streamReading = false := by
  cases hr : x.streamReading with
  | false => rfl
  | true => exact absurd (hx.reading hr).2.2.1 (not_or.mpr ⟨hwait, hstart⟩)

/-- A callback begins. -/
theorem Inv.callback (hx : x.Inv) (hdropped : x.phase ≠ .dropped) :
    ({ x with sleepState := .woken, phase := .delivered false } : TaskState).Inv where
  sleeping := nofun
  reading h := ⟨(hx.reading h).1, (hx.reading h).2.1, Or.inr rfl, (hx.reading h).2.2.2⟩
  idle := hx.idle
  stream := hx.stream
  writer h := Or.inl ((hx.writer h).resolve_right hdropped)
  asleep h := nomatch h
  waits h := nomatch h
  writes := hx.writes
  dropping h := h.elim nofun nofun
  code := nofun
  serviced _ := Or.inl trivial

end TaskState

namespace State

variable {s s' : State} {t : Ptr} {h : Waitable}

structure Inv (s : State) : Prop where
  tasks : ∀ t, (s.task t).Inv
  joined : ∀ t h, (s.task t).stream = some h → s.maps.joined h = if (s.task t).streamReading then some t else none
  distinct : ∀ t t' h, (s.task t).stream = some h → (s.task t').stream = some h → t = t'

/-- A step of one task keeps its wakeup stream, drops it, or makes one, and of the other
wakeup streams leaves the sets alone. -/
theorem Inv.of_task (hi : s.Inv) {x : TaskState} (htask : s'.task = Function.update s.task t x) (hx : x.Inv)
    (hstream : ∀ h, x.stream = some h → (s.task t).stream = some h ∨ ∀ t', (s.task t').stream ≠ some h)
    (hjoined : ∀ h, x.stream = some h → s'.maps.joined h = if x.streamReading then some t else none)
    (hother : ∀ t' h, t' ≠ t → (s.task t').stream = some h → s'.maps.joined h = s.maps.joined h) : s'.Inv := by
  have hself : s'.task t = x := by rw [htask, Function.update_self]
  have hne : ∀ t', t' ≠ t → s'.task t' = s.task t' := fun t' ht => by rw [htask, Function.update_of_ne ht]
  have hone : ∀ t' h, t' ≠ t → x.stream = some h → (s.task t').stream ≠ some h := by
    intro t' h ht hxh ht'
    rcases hstream h hxh with hold | hnew
    · exact ht (hi.distinct t' t h ht' hold)
    · exact hnew t' ht'
  constructor
  · intro t'
    by_cases ht : t' = t
    · subst ht
      rw [hself]
      exact hx
    · rw [hne t' ht]
      exact hi.tasks t'
  · intro t' h hs
    by_cases ht : t' = t
    · subst ht
      rw [hself] at hs ⊢
      exact hjoined h hs
    · rw [hne t' ht] at hs ⊢
      exact (hother t' h ht hs).trans (hi.joined t' h hs)
  · intro t₁ t₂ h h₁ h₂
    by_cases ht₁ : t₁ = t
    · by_cases ht₂ : t₂ = t
      · exact ht₁.trans ht₂.symm
      · subst ht₁
        rw [hself] at h₁
        rw [hne t₂ ht₂] at h₂
        exact absurd h₂ (hone t₂ h ht₂ h₁)
    · by_cases ht₂ : t₂ = t
      · subst ht₂
        rw [hself] at h₂
        rw [hne t₁ ht₁] at h₁
        exact absurd h₁ (hone t₁ h ht₁ h₂)
      · rw [hne t₁ ht₁] at h₁
        rw [hne t₂ ht₂] at h₂
        exact hi.distinct t₁ t₂ h h₁ h₂

/-! ## What each function changes -/

theorem Inv.joined_some (hi : s.Inv) (hstream : (s.task t).stream = some h)
    (hread : (s.task t).streamReading = true) : s.maps.joined h = some t := by
  rw [hi.joined t h hstream, if_pos hread]

theorem Inv.joined_none (hi : s.Inv) (hstream : (s.task t).stream = some h)
    (hread : (s.task t).streamReading = false) : s.maps.joined h = none := by
  rw [hi.joined t h hstream, hread]
  rfl

/-- The read is no longer in flight, and the handle of the stream in no set. -/
structure Cancelled (s s' : State) (t : Ptr) : Prop where
  task : ∃ copy, s'.task = Function.update s.task t { s.task t with streamReading := false, copy := copy } ∧
    (copy = .idle ∨ (s.task t).streamReading = false ∧ copy = (s.task t).copy)
  spawned : s'.spawned = s.spawned
  waitables : s'.maps.waitables = s.maps.waitables
  gone : ∀ h, (s.task t).stream = some h → (s.task t).streamReading = true → s'.maps.joined h = none
  joined : ∀ h, (s.task t).stream ≠ some h ∨ (s.task t).streamReading = false →
    s'.maps.joined h = s.maps.joined h

theorem cancelInterTaskStreamRead_ok (hok : s.cancelInterTaskStreamRead t = .ok s') : s.Cancelled s' t := by
  rw [cancelInterTaskStreamRead] at hok
  split at hok
  · rename_i hread
    split at hok
    · rename_i h hstream
      split at hok
      · cases hok
        refine ⟨⟨.idle, rfl, Or.inl rfl⟩, rfl, rfl, fun h' hs' _ => ?_, fun h' hs' => Function.update_of_ne ?_ ..⟩
        · cases hstream.symm.trans hs'
          exact Function.update_self ..
        · rintro rfl
          rcases hs' with hs' | hs'
          · exact hs' hstream
          · rw [hread] at hs'
            cases hs'
      · cases hok
    · cases hok
  · rename_i hread
    cases hok
    have hfalse : (s.task t).streamReading = false := Bool.not_eq_true _ ▸ hread
    refine ⟨⟨(s.task t).copy, ?_, Or.inr ⟨hfalse, rfl⟩⟩, rfl, rfl, fun h' _ hr => absurd hr hread, fun _ _ => rfl⟩
    rw [← hfalse, Function.update_eq_self]

/-- The event was that of the wakeup stream, or the map had an entry for it. -/
theorem deliverWaitableEvent_ok {c : Option Ptr} (hok : s.deliverWaitableEvent t h = .ok (c, s')) :
    (c = none ∧ (s.task t).stream = some h ∧
      s' = (s.join h none).setTask t fun x => { x with streamReading := false, copy := .idle }) ∨
    ∃ p, c = some p ∧ (s.task t).stream ≠ some h ∧ s.maps.waitables t h = some p ∧
      s' = { s with maps := (s.maps.waitableUnregister t h).2 } := by
  rw [deliverWaitableEvent] at hok
  split at hok
  · rename_i hstream
    cases hok
    exact Or.inl ⟨rfl, hstream, rfl⟩
  · rename_i hstream
    split at hok
    · rename_i p maps hp
      cases hok
      obtain ⟨hentry, rfl⟩ := Prod.mk.inj hp
      refine Or.inr ⟨p, rfl, hstream, hentry, ?_⟩
      simp only [join, Tasks.waitableUnregister, Function.update_idem]
      rfl
    · cases hok

theorem Cancelled.copy (hc : s.Cancelled s' t) (hi : s.Inv) :
    ((s'.task t).copy ≠ .reading ∧ (s'.task t).copy ≠ .completed) ∧
      ((s'.task t).stream ≠ none → (s'.task t).writer = true ∧ (s'.task t).copy ≠ .dropped) := by
  obtain ⟨copy, htask, hcopy⟩ := hc.task
  rw [htask, Function.update_self]
  rcases hcopy with rfl | ⟨hread, rfl⟩
  · exact ⟨⟨nofun, nofun⟩, fun hs => ⟨((hi.tasks t).stream hs).1, nofun⟩⟩
  · exact ⟨(hi.tasks t).idle hread, (hi.tasks t).stream⟩

/-- After the cancellation the task changes in what is not about its stream. -/
theorem Cancelled.inv (hc : s.Cancelled s' t) (hi : s.Inv) {f : TaskState → TaskState}
    (hx : (f (s'.task t)).Inv) (hstream : (f (s'.task t)).stream = (s'.task t).stream)
    (hreading : (f (s'.task t)).streamReading = false) : (s'.setTask t f).Inv := by
  obtain ⟨copy, htask, -⟩ := hc.task
  have hsame : (s'.task t).stream = (s.task t).stream := by rw [htask, Function.update_self]
  refine hi.of_task (t := t) (x := f (s'.task t)) ?_ hx (fun h hs => Or.inl ?_) (fun h hs => ?_) fun t' h ht hs => ?_
  · simp only [setTask]
    rw [htask, Function.update_self, Function.update_idem]
  · rw [← hsame, ← hstream]
    exact hs
  · have hold : (s.task t).stream = some h := by
      rw [← hsame, ← hstream]
      exact hs
    rw [hreading]
    cases hr : (s.task t).streamReading with
    | true => exact hc.gone h hold hr
    | false => exact (hc.joined h (Or.inr hr)).trans (hi.joined_none hold hr)
  · exact hc.joined h (Or.inl fun hs' => ht (hi.distinct t' t h hs hs'))

theorem Inv.dropTask (hi : s.Inv) (hphase : (s.task t).phase ≠ .dropped)
    (hover : (s.task t).tasks = 0 ∨ (s.task t).cancelled = true) (hok : s.dropTask t = .ok s') : s'.Inv := by
  rw [State.dropTask] at hok
  cases hc : s.cancelInterTaskStreamRead t with
  | error m =>
    rw [hc] at hok
    cases hok
  | ok s₁ =>
    rw [hc] at hok
    cases hok
    have hcan := cancelInterTaskStreamRead_ok hc
    obtain ⟨hcopy, hstream⟩ := hcan.copy hi
    obtain ⟨copy, htask, -⟩ := hcan.task
    have hself : s₁.task t = { s.task t with streamReading := false, copy := copy } := by
      rw [htask, Function.update_self]
    refine hcan.inv hi (f := fun x => { x with phase := .dropping }) ?_ rfl (congrArg TaskState.streamReading hself)
    have hover' : (s₁.task t).tasks = 0 ∨ (s₁.task t).cancelled = true := by
      rw [hself]
      exact hover
    refine .of_idle (congrArg TaskState.streamReading hself) hcopy (fun _ => Or.inl rfl) hstream (fun hw => ?_) ?_
      nofun nofun (fun _ => hover') fun _ => Or.inr (hover'.symm.imp id fun h => ⟨h, Or.inr (Or.inl rfl)⟩)
    · rw [hself] at hw ⊢
      exact Or.inl (((hi.tasks t).writer hw).resolve_right hphase)
    · rw [hself]
      exact (hi.tasks t).writes

theorem Inv.turn (hi : s.Inv) {looped : Bool} (hphase : (s.task t).phase = .delivered looped)
    (hok : s.turn t = .ok s') : s'.Inv := by
  have hcan : ∃ s₁, s.Cancelled s₁ t ∧
      s' = s₁.setTask t fun x => { x with sleepState := .polling, phase := .polling, woken := false } := by
    rw [State.turn, hphase] at hok
    cases looped with
    | false =>
      cases hc : s.cancelInterTaskStreamRead t with
      | error m =>
        dsimp only at hok
        rw [hc] at hok
        cases hok
      | ok s₁ =>
        dsimp only at hok
        rw [hc] at hok
        cases hok
        exact ⟨s₁, cancelInterTaskStreamRead_ok hc, rfl⟩
    | true =>
      cases hok
      have hfalse := (hi.tasks t).not_reading (by rw [hphase]; nofun) (by rw [hphase]; nofun)
      refine ⟨s, ⟨⟨(s.task t).copy, ?_, Or.inr ⟨hfalse, rfl⟩⟩, rfl, rfl, fun h _ hr => ?_, fun _ _ => rfl⟩, rfl⟩
      · rw [← hfalse, Function.update_eq_self]
      · rw [hfalse] at hr
        cases hr
  obtain ⟨s₁, hcan, rfl⟩ := hcan
  obtain ⟨hcopy, hstream⟩ := hcan.copy hi
  obtain ⟨copy, htask, -⟩ := hcan.task
  have hself : s₁.task t = { s.task t with streamReading := false, copy := copy } := by
    rw [htask, Function.update_self]
  refine hcan.inv hi (f := fun x => { x with sleepState := .polling, phase := .polling, woken := false }) ?_ rfl
    (congrArg TaskState.streamReading hself)
  refine .of_idle (congrArg TaskState.streamReading hself) hcopy nofun hstream (fun hw => ?_) ?_ nofun nofun
    (fun h => h.elim nofun nofun) nofun
  · rw [hself] at hw ⊢
    exact Or.inl (((hi.tasks t).writer hw).resolve_right (by rw [hphase]; nofun))
  · rw [hself]
    exact (hi.tasks t).writes

/-- The event of a waitable is delivered, and its callback comes next. -/
theorem Inv.deliver (hi : s.Inv) (hd : s.Deliverable t h) {f : TaskState → TaskState}
    {c : Option Ptr} {s₀ : State} (hs₀ : s₀ = s.setTask t f)
    (hok : s₀.deliverWaitableEvent t h = .ok (c, s')) {looped : Bool}
    (hf : ∀ x, (f x).stream = x.stream) (hr : ∀ x, (f x).streamReading = x.streamReading)
    (hx : ({ f (s.task t) with phase := .delivered looped } : TaskState).Inv)
    (hcan : ({ f (s.task t) with phase := .delivered looped, streamReading := false, copy := .idle } : TaskState).Inv) :
    (s'.setTask t fun x => { x with phase := .delivered looped }).Inv := by
  subst hs₀
  have hself : (s.setTask t f).task t = f (s.task t) := by simp only [setTask, Function.update_self]
  have hother : ∀ t' h', t' ≠ t → (s.task t').stream = some h' →
      Function.update s.maps.joined h none h' = s.maps.joined h' := by
    intro t' h' ht hs
    refine Function.update_of_ne ?_ ..
    rintro rfl
    have heq := (hi.joined t' h' hs).symm.trans hd.1
    split at heq
    · exact ht (Option.some.inj heq)
    · cases heq
  rcases deliverWaitableEvent_ok hok with ⟨-, hstream, rfl⟩ | ⟨p, -, hstream, -, rfl⟩
  · refine hi.of_task (t := t)
      (x := { f (s.task t) with phase := .delivered looped, streamReading := false, copy := .idle }) ?_ hcan
      (fun h' hs => Or.inl ?_) (fun h' hs => ?_) hother
    · simp only [setTask, join, Function.update_self, Function.update_idem]
    · exact (hf _).symm.trans hs
    · have hs' : (f (s.task t)).stream = some h' := hs
      have hmine : h' = h := by
        rw [hself] at hstream
        exact Option.some.inj (hs'.symm.trans hstream)
      subst hmine
      exact Function.update_self ..
  · refine hi.of_task (t := t) (x := { f (s.task t) with phase := .delivered looped }) ?_ hx
      (fun h' hs => Or.inl ((hf _).symm.trans hs)) (fun h' hs => ?_) hother
    · simp only [setTask, Function.update_self, Function.update_idem]
    · have hne : h' ≠ h := by
        rintro rfl
        exact hstream ((congrArg TaskState.stream hself).trans hs)
      have hold := hi.joined t h' ((hf _).symm.trans hs)
      rw [← hr] at hold
      exact (Function.update_of_ne hne ..).trans hold

theorem Inv.callback (hi : s.Inv) {event : HostEvent} {c : Option Ptr}
    (hphase : (s.task t).phase ≠ .dropped)
    (hd : ∀ h, event = .waitable h → s.Deliverable t h) (hok : s.callback t event = .ok (c, s')) : s'.Inv := by
  have hx := (hi.tasks t).callback hphase
  cases event with
  | cancel =>
    rw [State.callback] at hok
    cases hc : (s.setTask t fun x => { x with cancelled := true }).leave t .exit with
    | error m =>
      rw [hc] at hok
      cases hok
    | ok s₁ =>
      rw [hc] at hok
      cases hok
      have hx : ({ s.task t with cancelled := true } : TaskState).Inv := { hi.tasks t with
        dropping := fun _ => Or.inr rfl
        serviced := fun _ => Or.inr (Or.inl rfl) }
      have hset : (s.setTask t fun x => { x with cancelled := true }).Inv :=
        hi.of_task rfl hx (fun h hs => Or.inl hs) (fun h hs => hi.joined t h hs) fun _ _ _ _ => rfl
      have hself : (s.setTask t fun x => { x with cancelled := true }).task t =
          { s.task t with cancelled := true } := by simp only [setTask, Function.update_self]
      exact hset.dropTask (by rw [hself]; exact hphase) (by rw [hself]; exact Or.inr rfl) hc
  | none =>
    cases hok
    exact hi.of_task (t := t) (x := { s.task t with sleepState := .woken, phase := .delivered false }) rfl hx
      (fun h hs => Or.inl hs) (fun h hs => hi.joined t h hs) fun _ _ _ _ => rfl
  | waitable h =>
    rw [State.callback] at hok
    cases hc : (s.setTask t fun x => { x with sleepState := .woken }).deliverWaitableEvent t h with
    | error m =>
      rw [hc] at hok
      cases hok
    | ok r =>
      obtain ⟨c', s₁⟩ := r
      rw [hc] at hok
      cases hok
      refine hi.deliver (hd h rfl) rfl hc (fun _ => rfl) (fun _ => rfl) hx ?_
      exact .of_idle rfl ⟨nofun, nofun⟩ nofun (fun hs => ⟨((hi.tasks t).stream hs).1, nofun⟩)
        (fun hw => Or.inl (((hi.tasks t).writer hw).resolve_right hphase)) (hi.tasks t).writes nofun
        nofun (fun h => h.elim nofun nofun) fun _ => Or.inl trivial

/-- The futures are polled. -/
theorem Inv.pollNext (hi : s.Inv) {inner : Inner} (hphase : (s.task t).phase = .polling)
    (hok : s.pollNext t inner = .ok s') : s'.Inv := by
  have hidle := (hi.tasks t).not_reading (by rw [hphase]; nofun) (by rw [hphase]; nofun)
  have hawake : (s.task t).sleepState ≠ .sleeping := fun hs => by
    rcases (hi.tasks t).sleeping hs with ⟨hp, -⟩ | hp | hp <;> rw [hphase] at hp <;> cases hp
  have hserviced : (s.task t).woken = true → (s.task t).sleepState = .woken ∨ (s.task t).cancelled = true := by
    intro hw
    rcases (hi.tasks t).serviced hw with hs | hs | ⟨-, hp⟩
    · rw [TaskState.Serviced, hphase] at hs
      exact Or.inl hs
    · exact Or.inr hs
    · rcases hp with hp | hp | hp <;> rw [hphase] at hp <;> cases hp
  -- only the number of futures changes, and how far the poll is
  have hnew : ∀ (tasks : Nat) (phase : Phase) (s₁ : State), phase = .polling ∨ (∃ ready, phase = .polled ready) →
      s₁.task = Function.update s.task t { s.task t with tasks := tasks, phase := phase } → s₁.maps = s.maps →
      s₁.Inv := by
    intro tasks phase s₁ hp htask hmaps
    refine hi.of_task htask ?_ (fun h hs => Or.inl hs) (fun h hs => ?_) fun _ h _ _ => by rw [hmaps]
    · refine .of_idle hidle ((hi.tasks t).idle hidle) (fun hs => absurd hs hawake) (hi.tasks t).stream (fun hw => ?_)
        (hi.tasks t).writes ?_ ?_ ?_ fun hw => (hserviced hw).imp ?_ Or.inl
      · exact Or.inl (((hi.tasks t).writer hw).resolve_right (by rw [hphase]; nofun))
      · rcases hp with rfl | ⟨ready, rfl⟩ <;> exact nofun
      · rcases hp with rfl | ⟨ready, rfl⟩ <;> exact nofun
      · rcases hp with rfl | ⟨ready, rfl⟩ <;> exact fun h => h.elim nofun nofun
      · rcases hp with rfl | ⟨ready, rfl⟩ <;> exact id
    · rw [hmaps]
      exact hi.joined t h hs
  cases inner with
  | pending =>
    cases hok
    split
    · refine hnew ((s.task t).tasks + s.spawned) (.polled false) _ (Or.inr ⟨false, rfl⟩) ?_ rfl
      simp only [setTask, Function.update_self, Function.update_idem]
    · refine hnew ((s.task t).tasks + s.spawned) .polling _ (Or.inl rfl) ?_ rfl
      simp only [setTask, ← hphase]
  | none =>
    rw [State.pollNext] at hok
    dsimp only at hok
    split at hok
    · cases hok
      refine hnew ((s.task t).tasks + s.spawned) (.polled true) _ (Or.inr ⟨true, rfl⟩) ?_ rfl
      simp only [setTask, Function.update_self, Function.update_idem]
    · cases hok
  | finished =>
    cases hok
    refine hnew ((s.task t).tasks - 1 + s.spawned) .polling _ (Or.inl rfl) ?_ rfl
    simp only [setTask, ← hphase]

/-- The read of the wakeup stream is in flight. -/
theorem readInterTaskStream_ok (hidle : (s.task t).streamReading = false)
    (hok : s.readInterTaskStream t h = .ok s') :
    ∃ h', ((s.task t).stream = some h' ∨ (s.task t).stream = none ∧ h' = h) ∧
      s'.task = Function.update s.task t { s.task t with
        stream := some h'
        writer := (s.task t).stream = none ∨ (s.task t).writer
        copy := .reading
        streamReading := true
        writes := 0 } ∧
      s'.maps = { s.maps with joined := Function.update s.maps.joined h' (some t) } ∧ s'.spawned = s.spawned := by
  rw [readInterTaskStream] at hok
  cases hs : (s.task t).stream with
  | some h' =>
    rw [hs] at hok
    simp only [pure, Except.pure, bind, Except.bind, hidle, hs, Bool.false_eq_true, if_false] at hok
    split at hok
    · cases hok
      refine ⟨h', Or.inl rfl, ?_, rfl, rfl⟩
      simp only [join, setTask]
      simp [hs]
    · cases hok
  | none =>
    rw [hs] at hok
    simp only [hidle, Bool.false_eq_true, if_false] at hok
    split at hok
    · cases hok
    · simp only [pure, Except.pure, bind, Except.bind, setTask, Function.update_self, hidle, Bool.false_eq_true,
        if_false, if_true] at hok
      cases hok
      refine ⟨h, Or.inr ⟨rfl, rfl⟩, ?_, rfl, rfl⟩
      simp only [join, Function.update_idem]
      simp

/-- The turn of the loop ends. -/
theorem Inv.endTurn (hi : s.Inv) {ready remaining : Bool} {event : Option Waitable} {c : Option Ptr}
    (hphase : (s.task t).phase = .polled ready) (hd : ∀ h ∈ event, s.Deliverable t h) (hfresh : s.Fresh h)
    (hok : s.endTurn t ready remaining event h = .ok (c, s')) : s'.Inv := by
  have hidle := (hi.tasks t).not_reading (by rw [hphase]; nofun) (by rw [hphase]; nofun)
  have hserviced : (s.task t).woken = true → (s.task t).sleepState = .woken ∨ (s.task t).cancelled = true := by
    intro hw
    rcases (hi.tasks t).serviced hw with hs | hs | ⟨-, hp⟩
    · rw [TaskState.Serviced, hphase] at hs
      exact Or.inl hs
    · exact Or.inr hs
    · rcases hp with hp | hp | hp <;> rw [hphase] at hp <;> cases hp
  have hwriter : (s.task t).writer = true → (s.task t).stream ≠ none := fun hw =>
    ((hi.tasks t).writer hw).resolve_right (by rw [hphase]; nofun)
  have hawake : (s.task t).sleepState ≠ .sleeping := fun hs => by
    rcases (hi.tasks t).sleeping hs with ⟨hp, -⟩ | hp | hp <;> rw [hphase] at hp <;> cases hp
  have hreturn : ∀ (code : CallbackCode), code ≠ .exit → (code = .wait → (s.task t).tasks = 0) →
      (s.setTask t fun x => { x with phase := .returned code }).Inv := by
    intro code hexit hcode
    refine hi.of_task (x := { s.task t with phase := .returned code }) rfl ?_ (fun h hs => Or.inl hs)
      (fun h hs => hi.joined t h hs) fun _ _ _ _ => rfl
    refine .of_idle hidle ((hi.tasks t).idle hidle) (fun hs => absurd hs hawake) (hi.tasks t).stream
      (fun hw => Or.inl (hwriter hw)) (hi.tasks t).writes (fun hw => hcode ?_) (fun hw => ?_)
      (fun h => h.elim nofun nofun) fun hw => ?_
    · cases hw
      rfl
    · cases hw
      exact hexit rfl
    · cases code with
      | wait => exact Or.inr (Or.inr ⟨hcode rfl, Or.inl rfl⟩)
      | yield => exact Or.inl trivial
      | exit => exact absurd rfl hexit
  rw [State.endTurn] at hok
  split at hok
  · split at hok
    · rename_i hzero
      cases remaining with
      | true =>
        cases hok
        exact hreturn .wait nofun fun _ => hzero
      | false =>
        cases hc : s.leave t .exit with
        | error m =>
          simp only [Bool.false_eq_true, if_false] at hok
          rw [hc] at hok
          cases hok
        | ok s₁ =>
          simp only [Bool.false_eq_true, if_false] at hok
          rw [hc] at hok
          cases hok
          exact hi.dropTask (by rw [hphase]; nofun) (Or.inl hzero) hc
    · cases hok
  · split at hok
    · cases hok
    · split at hok
      · rename_i hwoken
        split at hok
        · rename_i h' hh'
          have hmem : h' ∈ event := by
            cases remaining with
            | true => exact hh'
            | false => cases hh'
          cases hc : s.deliverWaitableEvent t h' with
          | error m =>
            rw [hc] at hok
            cases hok
          | ok r =>
            obtain ⟨c', s₁⟩ := r
            rw [hc] at hok
            cases hok
            have hsame : s = s.setTask t id := by simp only [setTask, id, Function.update_eq_self]
            refine hi.deliver (f := id) (hd h' hmem) hsame hc (fun _ => rfl) (fun _ => rfl) ?_ ?_
            · exact .of_idle hidle ((hi.tasks t).idle hidle) (fun hs => absurd hs hawake) (hi.tasks t).stream
                (fun hw => Or.inl (hwriter hw)) (hi.tasks t).writes nofun nofun (fun h => h.elim nofun nofun)
                fun _ => Or.inl trivial
            · exact .of_idle rfl ⟨nofun, nofun⟩ (fun hs => absurd hs hawake)
                (fun hs => ⟨((hi.tasks t).stream hs).1, nofun⟩) (fun hw => Or.inl (hwriter hw)) (hi.tasks t).writes
                nofun nofun (fun h => h.elim nofun nofun) fun _ => Or.inl trivial
        · cases hok
          exact hreturn .yield nofun nofun
      · rename_i hwoken
        cases hc : (s.setTask t fun x => { x with sleepState := .sleeping }).readInterTaskStream t h with
        | error m =>
          rw [hc] at hok
          cases hok
        | ok s₁ =>
          rw [hc] at hok
          cases hok
          have hself : (s.setTask t fun x => { x with sleepState := .sleeping }).task t =
              { s.task t with sleepState := .sleeping } := by simp only [setTask, Function.update_self]
          obtain ⟨h', hh', htask, hmaps, -⟩ := readInterTaskStream_ok (congrArg TaskState.streamReading hself |>.trans hidle) hc
          rw [hself] at hh' htask
          refine hi.of_task (t := t) (x := { s.task t with
              sleepState := .sleeping
              phase := .returned .wait
              stream := some h'
              writer := (s.task t).stream = none ∨ (s.task t).writer
              copy := .reading
              streamReading := true
              writes := 0 }) ?_ ?_ (fun h₁ hs => ?_) (fun h₁ hs => ?_) fun t' h₁ ht hs => ?_
          · simp only [setTask]
            rw [htask]
            simp only [setTask, Function.update_self, Function.update_idem]
          · have hw : (decide ((s.task t).stream = none ∨ (s.task t).writer = true)) = true := by
              refine decide_eq_true ?_
              cases hs : (s.task t).stream with
              | none => exact Or.inl rfl
              | some h₁ => exact Or.inr ((hi.tasks t).stream (by rw [hs]; nofun)).1
            exact {
              sleeping := fun _ => Or.inl ⟨rfl, rfl, rfl⟩
              reading := fun _ => ⟨nofun, hw, Or.inl rfl, Or.inl ⟨rfl, rfl⟩⟩
              idle := nofun
              stream := fun _ => ⟨hw, nofun⟩
              writer := fun _ => Or.inl nofun
              asleep := fun _ _ => rfl
              waits := fun _ => Or.inr rfl
              writes := Nat.zero_le 1
              dropping := fun h => h.elim nofun nofun
              code := nofun
              serviced := fun hwk => Or.inr (Or.inl ((hserviced hwk).resolve_left hwoken)) }
          · cases hs
            rcases hh' with hold | ⟨-, rfl⟩
            · exact Or.inl hold
            · exact Or.inr hfresh.1
          · cases hs
            simp only [setTask, hmaps, Function.update_self, if_true]
          · simp only [setTask, hmaps]
            refine Function.update_of_ne ?_ ..
            rintro rfl
            rcases hh' with hold | ⟨-, rfl⟩
            · exact ht (hi.distinct t' t h₁ hs hold)
            · exact hfresh.1 t' hs

/-- What one step keeps. -/
theorem Inv.exec (hi : s.Inv) {e : Event} (hallowed : s.allowed e) {c : Option Ptr} (hok : s.exec e = .ok (c, s')) :
    s'.Inv := by
  cases e with
  | start t =>
    cases hok
    have hphase : (s.task t).phase = .none := hallowed
    refine hi.of_task (t := t) (x := { TaskState.new with sleepState := .woken, phase := .delivered false }) ?_ ?_
      nofun nofun fun _ _ _ _ => rfl
    · simp only [setTask, Function.update_self, Function.update_idem]
    · exact TaskState.Inv.new.callback nofun
  | callback t event =>
    obtain ⟨⟨code, hphase⟩, hd⟩ := hallowed
    refine hi.callback (by rw [hphase]; nofun) (fun h heq => ?_) hok
    subst heq
    exact hd
  | turn t =>
    obtain ⟨looped, hphase⟩ := hallowed
    cases hc : s.turn t with
    | error m =>
      rw [State.exec, hc] at hok
      cases hok
    | ok s₁ =>
      rw [State.exec, hc] at hok
      cases hok
      exact hi.turn hphase hc
  | pollNext t inner =>
    cases hc : s.pollNext t inner with
    | error m =>
      rw [State.exec, hc] at hok
      cases hok
    | ok s₁ =>
      rw [State.exec, hc] at hok
      cases hok
      exact hi.pollNext hallowed.1 hc
  | endTurn t remaining event h =>
    obtain ⟨⟨ready, hphase⟩, -, hd, hfresh⟩ := hallowed
    rw [State.exec, hphase] at hok
    exact hi.endTurn hphase hd hfresh hok
  | dropFields t =>
    cases hok
    have hphase : (s.task t).phase = .dropping := hallowed
    have hidle := (hi.tasks t).not_reading (by rw [hphase]; nofun) (by rw [hphase]; nofun)
    refine hi.of_task (t := t) rfl ?_ nofun nofun fun _ _ _ _ => rfl
    refine .of_idle hidle ?_ (fun _ => Or.inr rfl) nofun (fun _ => Or.inr rfl) (hi.tasks t).writes nofun nofun
      (fun _ => Or.inl rfl) fun _ => Or.inr (Or.inr ⟨rfl, Or.inr (Or.inr rfl)⟩)
    dsimp only
    split
    · exact ⟨nofun, nofun⟩
    · exact (hi.tasks t).idle hidle
  | wake t =>
    cases hw : (s.task t).wake with
    | error m =>
      simp only [State.exec, State.wake, hw] at hok
      cases hok
    | ok x =>
      simp only [State.exec, State.wake, hw] at hok
      cases hok
      have hsame : x.stream = (s.task t).stream ∧ x.streamReading = (s.task t).streamReading := by
        rw [TaskState.wake] at hw
        split at hw
        · cases hw
          exact ⟨rfl, rfl⟩
        · cases hw
          exact ⟨rfl, rfl⟩
        · split at hw
          · split at hw
            · cases hw
              exact ⟨rfl, rfl⟩
            · cases hw
          · cases hw
      exact hi.of_task (t := t) (x := x) rfl ((hi.tasks t).wake hallowed hw) (fun h hs => Or.inl (hsame.1.symm.trans hs))
        (fun h hs => by rw [hsame.2]; exact hi.joined t h (hsame.1.symm.trans hs)) fun _ _ _ _ => rfl
  | spawn =>
    cases hok
    exact ⟨hi.tasks, hi.joined, hi.distinct⟩
  | edit maps =>
    cases hok
    exact ⟨hi.tasks, fun t h hs => (hallowed t h hs).trans (hi.joined t h hs), hi.distinct⟩

theorem Inv.fresh : State.fresh.Inv where
  tasks _ := .new
  joined _ _ hs := nomatch hs
  distinct _ _ _ hs := nomatch hs

theorem Inv.of_reachable (h : system.Reachable s) : s.Inv :=
  System.Reachable.invariant (S := system) (I := State.Inv) (fun _ hs => hs ▸ .fresh)
    (fun s e s' hinv hok hrun => by
      cases hr : s.exec e with
      | error m =>
        have hrun' : Prod.snd <$> s.exec e = .ok s' := hrun
        rw [hr] at hrun'
        cases hrun'
      | ok r =>
        have hrun' : Prod.snd <$> s.exec e = .ok s' := hrun
        rw [hr] at hrun'
        cases hrun'
        exact hinv.exec hok hr) h

/-- A wake after the last poll of the task is seen by the loop, by the host that was told
to yield, or by the host that has the event of the wakeup stream for the set of the
task. -/
def Serviced (s : State) (t : Ptr) : Prop :=
  match (s.task t).phase with
  | .delivered _ | .returned .yield => True
  | .polling | .polled _ => (s.task t).sleepState = .woken
  | .returned .wait => ∃ h, (s.task t).stream = some h ∧ (s.task t).streamReading = true ∧
      (s.task t).copy = .completed ∧ s.Deliverable t h
  | .none | .returned .exit | .dropping | .dropped => False

theorem Inv.serviced (hi : s.Inv) (hx : (s.task t).Serviced) : s.Serviced t := by
  rw [TaskState.Serviced] at hx
  rw [State.Serviced]
  split at hx
  · trivial
  · trivial
  · exact hx
  · exact hx
  · obtain ⟨-, hread, hcopy⟩ := hx
    obtain ⟨h, hstream⟩ := Option.ne_none_iff_exists'.mp ((hi.tasks t).reading hread).1
    exact ⟨h, hstream, hread, hcopy, hi.joined_some hstream hread, fun _ => hcopy⟩
  all_goals exact hx.elim

/-! ## Tasks that the host does not cancel in their sleep -/

/-- A task that sleeps is not cancelled. -/
def Undisturbed (s : State) : Event → Prop
  | .callback t .cancel => (s.task t).sleepState ≠ .sleeping
  | _ => True

/-- No task that is being dropped, or was, says that it sleeps. -/
def Rested (s : State) : Prop :=
  ∀ t, (s.task t).phase = .dropping ∨ (s.task t).phase = .dropped → (s.task t).sleepState ≠ .sleeping

end State

/-- The runs in which no task is cancelled while it sleeps. -/
def undisturbed : System State Event String where
  init s := s = State.fresh
  allowed s e := s.allowed e ∧ s.Undisturbed e
  exec s e := Prod.snd <$> s.exec e

namespace State

variable {s s' : State} {t : Ptr} {h : Waitable}

/-- Only task `t` changes. -/
def Elsewhere (s s' : State) (t : Ptr) : Prop := ∀ t', t' ≠ t → s'.task t' = s.task t'

theorem setTask_elsewhere (f : TaskState → TaskState) : s.Elsewhere (s.setTask t f) t := fun t' ht => by
  simp only [setTask, Function.update_of_ne ht]

theorem Elsewhere.trans {s₁ : State} (h : s.Elsewhere s₁ t) (h' : s₁.Elsewhere s' t) : s.Elsewhere s' t :=
  fun t' ht => (h' t' ht).trans (h t' ht)

theorem Cancelled.elsewhere (hc : s.Cancelled s' t) : s.Elsewhere s' t := fun t' ht => by
  obtain ⟨copy, htask, -⟩ := hc.task
  rw [htask, Function.update_of_ne ht]

theorem deliverWaitableEvent_elsewhere {c : Option Ptr} (hok : s.deliverWaitableEvent t h = .ok (c, s')) :
    s.Elsewhere s' t := by
  rcases deliverWaitableEvent_ok hok with ⟨-, -, rfl⟩ | ⟨p, -, -, -, rfl⟩
  · exact setTask_elsewhere (s := s.join h none) _
  · exact fun _ _ => rfl

theorem dropTask_task (hok : s.dropTask t = .ok s') :
    (s'.task t).sleepState = (s.task t).sleepState ∧ s.Elsewhere s' t := by
  rw [State.dropTask] at hok
  cases hc : s.cancelInterTaskStreamRead t with
  | error m =>
    rw [hc] at hok
    cases hok
  | ok s₁ =>
    rw [hc] at hok
    cases hok
    have hcan := cancelInterTaskStreamRead_ok hc
    obtain ⟨copy, htask, -⟩ := hcan.task
    refine ⟨?_, hcan.elsewhere.trans (setTask_elsewhere _)⟩
    simp only [setTask, Function.update_self]
    rw [htask, Function.update_self]

/-- A step of task `t` that does not leave it dropped in its sleep. -/
theorem Rested.step (hr : s.Rested) (hel : s.Elsewhere s' t)
    (ht : (s'.task t).phase = .dropping ∨ (s'.task t).phase = .dropped → (s'.task t).sleepState ≠ .sleeping) :
    s'.Rested := by
  intro t' hp
  by_cases heq : t' = t
  · subst heq
    exact ht hp
  · rw [hel t' heq] at hp ⊢
    exact hr t' hp

theorem Rested.phase (hr : s.Rested) (phase : Phase) (hel : s.Elsewhere s' t) (hphase : (s'.task t).phase = phase)
    (hne : phase ≠ .dropping ∧ phase ≠ .dropped) : s'.Rested :=
  hr.step hel fun hp => by
    rw [hphase] at hp
    exact absurd hp (not_or.mpr hne)

theorem Rested.endTurn (hr : s.Rested) (hi : s.Inv) {ready remaining : Bool} {event : Option Waitable}
    {c : Option Ptr} (hphase : (s.task t).phase = .polled ready)
    (hok : s.endTurn t ready remaining event h = .ok (c, s')) : s'.Rested := by
  have hawake : (s.task t).sleepState ≠ .sleeping := fun hs => by
    rcases (hi.tasks t).sleeping hs with ⟨hp, -⟩ | hp | hp <;> rw [hphase] at hp <;> cases hp
  have hreturn : ∀ {s₁ : State} (phase : Phase), s.Elsewhere s₁ t → phase ≠ .dropping ∧ phase ≠ .dropped →
      (s₁.setTask t fun x => { x with phase := phase }).Rested := by
    intro s₁ phase hel hne
    refine hr.phase phase (hel.trans (setTask_elsewhere _)) ?_ hne
    simp only [setTask, Function.update_self]
  rw [State.endTurn] at hok
  split at hok
  · split at hok
    · cases remaining with
      | true =>
        cases hok
        exact hreturn (.returned .wait) (fun _ _ => rfl) ⟨nofun, nofun⟩
      | false =>
        simp only [Bool.false_eq_true, if_false] at hok
        cases hc : s.leave t .exit with
        | error m =>
          rw [hc] at hok
          cases hok
        | ok s₁ =>
          rw [hc] at hok
          cases hok
          obtain ⟨hsleep, hel⟩ := dropTask_task hc
          exact hr.step hel fun _ => hsleep ▸ hawake
    · cases hok
  · split at hok
    · cases hok
    · split at hok
      · split at hok
        · rename_i h' _
          cases hc : s.deliverWaitableEvent t h' with
          | error m =>
            rw [hc] at hok
            cases hok
          | ok r =>
            rw [hc] at hok
            cases hok
            exact hreturn (.delivered true) (deliverWaitableEvent_elsewhere hc) ⟨nofun, nofun⟩
        · cases hok
          exact hreturn (.returned .yield) (fun _ _ => rfl) ⟨nofun, nofun⟩
      · have hidle := (hi.tasks t).not_reading (by rw [hphase]; nofun) (by rw [hphase]; nofun)
        cases hc : (s.setTask t fun x => { x with sleepState := .sleeping }).readInterTaskStream t h with
        | error m =>
          rw [hc] at hok
          cases hok
        | ok s₁ =>
          rw [hc] at hok
          cases hok
          have hself : (s.setTask t fun x => { x with sleepState := .sleeping }).task t =
              { s.task t with sleepState := .sleeping } := by simp only [setTask, Function.update_self]
          obtain ⟨h', -, htask, -⟩ :=
            readInterTaskStream_ok ((congrArg TaskState.streamReading hself).trans hidle) hc
          have hel : s.Elsewhere s₁ t := fun t' ht => by
            rw [htask, Function.update_of_ne ht]
            exact setTask_elsewhere _ t' ht
          exact hreturn (.returned .wait) hel ⟨nofun, nofun⟩

theorem Rested.exec (hr : s.Rested) (hi : s.Inv) {e : Event} (hallowed : s.allowed e) (hu : s.Undisturbed e)
    {c : Option Ptr} (hok : s.exec e = .ok (c, s')) : s'.Rested := by
  have hset : ∀ {s₁ : State} (t : Ptr) (f : TaskState → TaskState), s.Elsewhere s₁ t →
      ((f (s₁.task t)).phase ≠ .dropping ∧ (f (s₁.task t)).phase ≠ .dropped) → (s₁.setTask t f).Rested := by
    intro s₁ t f hel hne
    refine hr.phase (f (s₁.task t)).phase (hel.trans (setTask_elsewhere _)) ?_ hne
    simp only [setTask, Function.update_self]
  cases e with
  | start t =>
    cases hok
    exact hset t _ (setTask_elsewhere _) ⟨nofun, nofun⟩
  | callback t event =>
    cases event with
    | cancel =>
      cases hc : (s.setTask t fun x => { x with cancelled := true }).leave t .exit with
      | error m =>
        simp only [State.exec, State.callback] at hok
        rw [hc] at hok
        cases hok
      | ok s₁ =>
        simp only [State.exec, State.callback] at hok
        rw [hc] at hok
        cases hok
        obtain ⟨hsleep, hel⟩ := dropTask_task hc
        refine hr.step (Elsewhere.trans (setTask_elsewhere _) hel) fun _ => ?_
        rw [hsleep]
        simp only [setTask, Function.update_self]
        exact hu
    | none =>
      cases hok
      exact hset t _ (fun _ _ => rfl) ⟨nofun, nofun⟩
    | waitable h =>
      cases hc : (s.setTask t fun x => { x with sleepState := .woken }).deliverWaitableEvent t h with
      | error m =>
        simp only [State.exec, State.callback] at hok
        rw [hc] at hok
        cases hok
      | ok r =>
        simp only [State.exec, State.callback] at hok
        rw [hc] at hok
        cases hok
        exact hset t _ (Elsewhere.trans (setTask_elsewhere _) (deliverWaitableEvent_elsewhere hc)) ⟨nofun, nofun⟩
  | turn t =>
    obtain ⟨looped, hphase⟩ := hallowed
    simp only [State.exec, State.turn, hphase] at hok
    cases looped with
    | false =>
      cases hc : s.cancelInterTaskStreamRead t with
      | error m =>
        dsimp only at hok
        rw [hc] at hok
        cases hok
      | ok s₁ =>
        dsimp only at hok
        rw [hc] at hok
        cases hok
        exact hset t _ (cancelInterTaskStreamRead_ok hc).elsewhere ⟨nofun, nofun⟩
    | true =>
      cases hok
      exact hset t _ (fun _ _ => rfl) ⟨nofun, nofun⟩
  | pollNext t inner =>
    have hphase : (s.task t).phase = .polling := hallowed.1
    have hstay : ∀ {s₁ : State}, s.Elsewhere s₁ t → (s₁.task t).phase = .polling → s₁.Rested :=
      fun hel hp => hr.phase _ hel hp ⟨nofun, nofun⟩
    cases inner with
    | pending =>
      cases hok
      dsimp only
      split
      · refine hr.phase (t := t) (.polled false) (fun t' ht => ?_) ?_ ⟨nofun, nofun⟩
        · simp only [setTask, Function.update_of_ne ht]
        · simp only [setTask, Function.update_self]
      · refine hstay (fun t' ht => ?_) ?_
        · simp only [setTask, Function.update_of_ne ht]
        · simp only [setTask, Function.update_self]
          exact hphase
    | none =>
      simp only [State.exec, State.pollNext] at hok
      split at hok
      · cases hok
        refine hr.phase (t := t) (.polled true) (fun t' ht => ?_) ?_ ⟨nofun, nofun⟩
        · simp only [setTask, Function.update_of_ne ht]
        · simp only [setTask, Function.update_self]
      · cases hok
    | finished =>
      cases hok
      refine hstay (fun t' ht => ?_) ?_
      · simp only [setTask, Function.update_of_ne ht]
      · simp only [setTask, Function.update_self]
        exact hphase
  | endTurn t remaining event h =>
    obtain ⟨⟨ready, hphase⟩, -⟩ := hallowed
    rw [State.exec, hphase] at hok
    exact hr.endTurn hi hphase hok
  | dropFields t =>
    cases hok
    refine hr.step (setTask_elsewhere _) fun _ => ?_
    simp only [dropFields, setTask, Function.update_self]
    exact hr t (Or.inl hallowed)
  | wake t =>
    cases hw : (s.task t).wake with
    | error m =>
      simp only [State.exec, State.wake, hw] at hok
      cases hok
    | ok x =>
      simp only [State.exec, State.wake, hw] at hok
      cases hok
      refine hr.step (setTask_elsewhere _) fun _ => ?_
      simp only [setTask, Function.update_self]
      rw [TaskState.wake] at hw
      split at hw
      · cases hw
        exact nofun
      · cases hw
        exact nofun
      · split at hw
        · split at hw
          · cases hw
            exact nofun
          · cases hw
        · cases hw
  | spawn =>
    cases hok
    exact hr
  | edit maps =>
    cases hok
    exact hr

theorem Inv.of_undisturbed (h : undisturbed.Reachable s) : s.Inv ∧ s.Rested := by
  refine System.Reachable.invariant (S := undisturbed) (I := fun s => s.Inv ∧ s.Rested) (fun s hs => ?_) ?_ h
  · subst hs
    exact ⟨.fresh, fun t hp => hp.elim nofun nofun⟩
  · rintro s e s' ⟨hinv, hr⟩ hok hrun
    have hrun' : Prod.snd <$> s.exec e = .ok s' := hrun
    cases hx : s.exec e with
    | error m =>
      rw [hx] at hrun'
      cases hrun'
    | ok r =>
      rw [hx] at hrun'
      cases hrun'
      exact ⟨hinv.exec hok.1 hx, hr.exec hinv hok.1 hok.2 hx⟩

end State

/-! ## Every run -/

/-- A task whose waker was invoked after its last poll began is polled again, unless it
has no future left or the host has cancelled it. -/
theorem wakes_are_serviced (s : State) (h : system.Reachable s) (t : Ptr) (hw : (s.task t).woken = true) :
    s.Serviced t ∨ (s.task t).cancelled = true ∨
      (s.task t).tasks = 0 ∧ ((s.task t).phase = .returned .wait ∨ (s.task t).phase = .dropping ∨
        (s.task t).phase = .dropped) := by
  have hinv := State.Inv.of_reachable h
  exact ((hinv.tasks t).serviced hw).imp hinv.serviced id

/-- A task sleeps, and another one wakes it. -/
theorem wakes_are_serviced_asleep : ∃ s : State, (s.task 0).phase = .returned .wait ∧ (s.task 0).writes = 1 ∧
    (s.Serviced 0 ∨ (s.task 0).cancelled = true ∨
      (s.task 0).tasks = 0 ∧ ((s.task 0).phase = .returned .wait ∨ (s.task 0).phase = .dropping ∨
        (s.task 0).phase = .dropped)) := by
  have h₀ : system.Reachable State.fresh := .init _ rfl
  have h₁ := h₀.step _ _ (Event.start 0) rfl rfl
  have h₂ := h₁.step _ _ (Event.turn 0) ⟨false, rfl⟩ rfl
  have h₃ := h₂.step _ _ (Event.pollNext 0 .pending) ⟨rfl, Nat.zero_lt_one⟩ rfl
  have h₄ := h₃.step _ _ (Event.endTurn 0 false none 7) ⟨⟨false, rfl⟩, ⟨nofun, fun ⟨_, hh⟩ => nomatch hh⟩, nofun,
    fun t => by rcases t with _ | t <;> nofun, rfl, fun _ => rfl⟩ rfl
  have h₅ := h₄.step _ _ (Event.wake 0) nofun rfl
  exact ⟨_, rfl, rfl, wakes_are_serviced _ h₅ 0 rfl⟩

/-- The last future of a task wakes it and finishes; the task waits for a waitable that
was registered, and nothing polls it for the wake. -/
theorem finished_task_not_polled : ∃ s : State, system.Reachable s ∧ (s.task 0).woken = true ∧
    (s.task 0).phase = .returned .wait ∧ (s.task 0).streamReading = false ∧ ¬s.Serviced 0 := by
  have h₀ : system.Reachable State.fresh := .init _ rfl
  have h₁ := h₀.step _ _ (Event.start 0) rfl rfl
  have h₂ := h₁.step _ _ (Event.turn 0) ⟨false, rfl⟩ rfl
  have h₃ := h₂.step _ _ (Event.edit (Tasks.none.waitableRegister 0 3 1).2)
    (fun t h hs => by rcases t with _ | t <;> cases hs) rfl
  have h₄ := h₃.step _ _ (Event.wake 0) nofun rfl
  have h₅ := h₄.step _ _ (Event.pollNext 0 .finished) ⟨rfl, Nat.zero_lt_one⟩ rfl
  have h₆ := h₅.step _ _ (Event.pollNext 0 .none) ⟨rfl, rfl⟩ rfl
  have h₇ := h₆.step _ _ (Event.endTurn 0 true none 7) ⟨⟨true, rfl⟩, ⟨fun _ => ⟨3, rfl⟩, fun _ => rfl⟩, nofun,
    fun t => by rcases t with _ | t <;> nofun, rfl, fun t => if_neg fun hh => absurd hh.2 (by decide)⟩ rfl
  exact ⟨_, h₇, rfl, rfl, rfl, fun ⟨_, hs, _⟩ => nomatch hs⟩

/-- As long as no task is cancelled while it sleeps, a task that sleeps has its read in
flight, any waker may be invoked at any time, and a read is written to at most once. -/
theorem waking_is_safe (s : State) (h : undisturbed.Reachable s) (t : Ptr) :
    ((s.task t).sleepState = .sleeping → (s.task t).streamReading = true ∧ (s.task t).copy = .reading) ∧
      (∃ s', s.wake t = .ok s') ∧ (s.task t).writes ≤ 1 := by
  obtain ⟨hinv, hrested⟩ := State.Inv.of_undisturbed h
  have hx := hinv.tasks t
  have hsleep : (s.task t).sleepState = .sleeping → (s.task t).streamReading = true ∧ (s.task t).copy = .reading := by
    intro hs
    rcases hx.sleeping hs with ⟨-, hrest⟩ | hp
    · exact hrest
    · exact absurd hs (hrested t hp)
  refine ⟨hsleep, ?_, hx.writes⟩
  have hwake : ∃ x, (s.task t).wake = .ok x := by
    rw [TaskState.wake]
    cases hs : (s.task t).sleepState with
    | polling => exact ⟨_, rfl⟩
    | woken => exact ⟨_, rfl⟩
    | sleeping =>
      obtain ⟨hread, hcopy⟩ := hsleep hs
      simp only [(hx.reading hread).2.1, hcopy, if_true]
      exact ⟨_, rfl⟩
  obtain ⟨x, hok⟩ := hwake
  exact ⟨s.setTask t fun _ => x, by rw [State.wake, hok]; rfl⟩

/-- A task sleeps, is woken, exits, and is woken once more after its drop. -/
theorem waking_is_safe_dropped : ∃ s : State, (s.task 0).phase = .dropped ∧
    (((s.task 0).sleepState = .sleeping → (s.task 0).streamReading = true ∧ (s.task 0).copy = .reading) ∧
      (∃ s', s.wake 0 = .ok s') ∧ (s.task 0).writes ≤ 1) := by
  have h₀ : undisturbed.Reachable State.fresh := .init _ rfl
  have h₁ := h₀.step _ _ (Event.start 0) ⟨rfl, trivial⟩ rfl
  have h₂ := h₁.step _ _ (Event.turn 0) ⟨⟨false, rfl⟩, trivial⟩ rfl
  have h₃ := h₂.step _ _ (Event.pollNext 0 .pending) ⟨⟨rfl, Nat.zero_lt_one⟩, trivial⟩ rfl
  have h₄ := h₃.step _ _ (Event.endTurn 0 false none 7)
    ⟨⟨⟨false, rfl⟩, ⟨nofun, fun ⟨_, hh⟩ => nomatch hh⟩, nofun, fun t => by rcases t with _ | t <;> nofun, rfl,
      fun _ => rfl⟩, trivial⟩ rfl
  have h₅ := h₄.step _ _ (Event.wake 0) ⟨nofun, trivial⟩ rfl
  have h₆ := h₅.step _ _ (Event.callback 0 (.waitable 7)) ⟨⟨⟨.wait, rfl⟩, rfl, fun _ => rfl⟩, trivial⟩ rfl
  have h₇ := h₆.step _ _ (Event.turn 0) ⟨⟨false, rfl⟩, trivial⟩ rfl
  have h₈ := h₇.step _ _ (Event.pollNext 0 .finished) ⟨⟨rfl, Nat.zero_lt_one⟩, trivial⟩ rfl
  have h₉ := h₈.step _ _ (Event.pollNext 0 .none) ⟨⟨rfl, rfl⟩, trivial⟩ rfl
  have h₁₀ := h₉.step _ _ (Event.endTurn 0 false none 8)
    ⟨⟨⟨true, rfl⟩, ⟨nofun, fun ⟨_, hh⟩ => nomatch hh⟩, nofun, fun t => by rcases t with _ | t <;> nofun, rfl,
      fun _ => rfl⟩, trivial⟩ rfl
  have h₁₁ := h₁₀.step _ _ (Event.dropFields 0) ⟨rfl, trivial⟩ rfl
  exact ⟨_, rfl, waking_is_safe _ h₁₁ 0⟩

/-- The host cancels a task that sleeps. While its futures are dropped it says that it
sleeps and its read is gone: whoever wakes it then panics. -/
theorem waking_cancelled_panics : ∃ s : State, system.Reachable s ∧ (s.task 0).phase = .dropping ∧
    (s.task 0).sleepState = .sleeping ∧ (s.task 0).streamReading = false ∧
    s.wake 0 = .error "assertion `left == right` failed" := by
  have h₀ : system.Reachable State.fresh := .init _ rfl
  have h₁ := h₀.step _ _ (Event.start 0) rfl rfl
  have h₂ := h₁.step _ _ (Event.turn 0) ⟨false, rfl⟩ rfl
  have h₃ := h₂.step _ _ (Event.pollNext 0 .pending) ⟨rfl, Nat.zero_lt_one⟩ rfl
  have h₄ := h₃.step _ _ (Event.endTurn 0 false none 7) ⟨⟨false, rfl⟩, ⟨nofun, fun ⟨_, hh⟩ => nomatch hh⟩, nofun,
    fun t => by rcases t with _ | t <;> nofun, rfl, fun _ => rfl⟩ rfl
  have h₅ := h₄.step _ _ (Event.callback 0 .cancel) ⟨⟨.wait, rfl⟩, trivial⟩ rfl
  exact ⟨_, h₅, rfl, rfl, rfl, rfl⟩

end Executor

end Rt

end WitBindgen
