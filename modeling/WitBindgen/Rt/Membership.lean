import WitBindgen.Rt.Shift
import WitBindgen.Rt.Wakeup

/-!
# The waitable sets of the tasks

The operations of a component and the executor of its tasks edit the maps and the sets
together. In every run the set of a task holds the waitables in its map and, while it is
read, its wakeup stream.
-/

namespace WitBindgen

namespace Rt

namespace Executor

/-- The handle under which the wakeup stream is made, if it is made. -/
def Event.handle : Event → Option Waitable
  | .endTurn _ _ _ h => some h
  | _ => none

namespace State

variable {s s' : State} {t : Ptr} {h : Waitable}

/-- The maps stay, and the sets change at most in wakeup streams. -/
structure Quiet (s s' : State) (handle : Option Waitable) : Prop where
  waitables : s'.maps.waitables = s.maps.waitables
  joined : ∀ h, (∀ t, (s.task t).stream ≠ some h) → (∀ t, (s'.task t).stream ≠ some h) →
    s'.maps.joined h = s.maps.joined h
  stream : ∀ t h, (s'.task t).stream = some h → (s.task t).stream = some h ∨ handle = some h
  gone : ∀ t h, (s.task t).stream = some h → (∀ t', (s'.task t').stream ≠ some h) → s'.maps.joined h = none

/-- The streams are the same. -/
theorem Quiet.of_same {handle : Option Waitable} (hstream : ∀ t, (s'.task t).stream = (s.task t).stream)
    (hw : s'.maps.waitables = s.maps.waitables)
    (hj : ∀ h, (∀ t, (s.task t).stream ≠ some h) → s'.maps.joined h = s.maps.joined h) : s.Quiet s' handle where
  waitables := hw
  joined _ hno _ := hj _ hno
  stream t _ hs := Or.inl ((hstream t).symm.trans hs)
  gone t _ hs hno := absurd ((hstream t).trans hs) (hno t)

theorem setTask_stream {f : TaskState → TaskState} (hf : (f (s.task t)).stream = (s.task t).stream) (t' : Ptr) :
    ((s.setTask t f).task t').stream = (s.task t').stream := by
  by_cases ht : t' = t
  · subst ht
    simp only [setTask, Function.update_self]
    exact hf
  · simp only [setTask, Function.update_of_ne ht]

theorem Quiet.setTask {handle : Option Waitable} (hq : s.Quiet s' handle) {f : TaskState → TaskState}
    (hf : (f (s'.task t)).stream = (s'.task t).stream) : s.Quiet (s'.setTask t f) handle where
  waitables := hq.waitables
  joined h hno hno' := hq.joined h hno fun t' hs => hno' t' ((setTask_stream hf t').trans hs)
  stream t' h hs := hq.stream t' h ((setTask_stream hf t').symm.trans hs)
  gone t' h hs hno := hq.gone t' h hs fun t₁ hs₁ => hno t₁ ((setTask_stream hf t₁).trans hs₁)

theorem Quiet.refl {handle : Option Waitable} : s.Quiet s handle :=
  .of_same (fun _ => rfl) rfl fun _ _ => rfl

theorem Cancelled.quiet {handle : Option Waitable} (hc : s.Cancelled s' t) : s.Quiet s' handle := by
  obtain ⟨copy, htask, -⟩ := hc.task
  refine .of_same (fun t' => ?_) hc.waitables fun h hno => hc.joined h (Or.inl (hno t))
  rw [htask]
  by_cases ht : t' = t
  · subst ht
    rw [Function.update_self]
  · rw [Function.update_of_ne ht]

theorem dropTask_quiet (handle : Option Waitable) (hok : s.dropTask t = .ok s') : s.Quiet s' handle := by
  rw [State.dropTask] at hok
  cases hc : s.cancelInterTaskStreamRead t with
  | error m =>
    rw [hc] at hok
    cases hok
  | ok s₁ =>
    rw [hc] at hok
    cases hok
    exact (cancelInterTaskStreamRead_ok hc).quiet.setTask rfl

/-- What a step of a task delivers to an operation. -/
structure Delivers (s s' : State) (t : Ptr) (h : Waitable) (p : Ptr) : Prop where
  deliverable : s.Deliverable t h
  stream : (s.task t).stream ≠ some h
  entry : s.maps.waitables t h = some p
  maps : s'.maps = (s.maps.waitableUnregister t h).2
  streams : ∀ t', (s'.task t').stream = (s.task t').stream

/-- A delivery is quiet, or is one to an operation. -/
theorem deliver_cases (handle : Option Waitable) {c : Option Ptr} {f g : TaskState → TaskState}
    (hf : ∀ x, (f x).stream = x.stream) (hg : ∀ x, (g x).stream = x.stream) (hd : s.Deliverable t h)
    (hok : (s.setTask t f).deliverWaitableEvent t h = .ok (c, s')) :
    (c = none ∧ s.Quiet (s'.setTask t g) handle) ∨ ∃ p, c = some p ∧ s.Delivers (s'.setTask t g) t h p := by
  have hsame := fun t' => setTask_stream (s := s) (t := t) (hf (s.task t)) t'
  rcases deliverWaitableEvent_ok hok with ⟨rfl, hstream, rfl⟩ | ⟨p, rfl, hstream, hentry, rfl⟩
  · have hq : s.Quiet (((s.setTask t f).join h none).setTask t fun x =>
        { x with streamReading := false, copy := .idle }) handle := by
      refine .of_same (fun t' => ?_) rfl fun h' hno => Function.update_of_ne ?_ ..
      · exact (setTask_stream (s := (s.setTask t f).join h none) rfl t').trans (hsame t')
      · rintro rfl
        exact hno t ((hsame t).symm.trans hstream)
    exact Or.inl ⟨rfl, hq.setTask (hg _)⟩
  · refine Or.inr ⟨p, rfl, hd, fun hs => hstream ((hsame t).trans hs), hentry, rfl, fun t' => ?_⟩
    exact (setTask_stream (s := { s.setTask t f with maps := _ }) (hg _) t').trans (hsame t')

theorem wake_stream {x x' : TaskState} (hw : x.wake = .ok x') : x'.stream = x.stream := by
  rw [TaskState.wake] at hw
  split at hw
  · cases hw
    rfl
  · cases hw
    rfl
  · split at hw
    · split at hw
      · cases hw
        rfl
      · cases hw
    · cases hw

/-- Of the steps of a task, only the delivery to an operation takes something out of a
map. -/
theorem exec_maps (hi : s.Inv) {e : Event} (hallowed : s.allowed e) (hedit : ∀ maps, e ≠ .edit maps)
    {c : Option Ptr} (hok : s.exec e = .ok (c, s')) :
    (c = none ∧ s.Quiet s' e.handle) ∨ ∃ t h p, c = some p ∧ s.Delivers s' t h p := by
  cases e with
  | start t =>
    cases hok
    have hphase : (s.task t).phase = .none := hallowed
    have hidle := (hi.tasks t).not_reading (by rw [hphase]; simp) (by rw [hphase]; simp)
    have hq : s.Quiet (s.setTask t fun _ => .new) (Event.start t).handle := by
      refine ⟨rfl, fun _ _ _ => rfl, fun t' h hs => ?_, fun t' h hs hno => ?_⟩
      · by_cases ht : t' = t
        · subst ht
          simp only [State.setTask, Function.update_self] at hs
          cases hs
        · simp only [State.setTask, Function.update_of_ne ht] at hs
          exact Or.inl hs
      · by_cases ht : t' = t
        · subst ht
          exact hi.joined_none hs hidle
        · have hno' := hno t'
          simp only [State.setTask, Function.update_of_ne ht] at hno'
          exact absurd hs hno'
    exact Or.inl ⟨rfl, hq.setTask rfl⟩
  | callback t event =>
    cases event with
    | cancel =>
      cases hc : (s.setTask t fun x => { x with cancelled := true }).leave t .exit with
      | error m =>
        simp only [State.exec, State.callback] at hok
        rw [hc] at hok
        cases hok
      | ok s₁ =>
        simp only [State.exec, State.callback] at hok
        rw [hc] at hok
        cases hok
        have hq := dropTask_quiet none hc
        have hsame := fun t' => setTask_stream (s := s) (t := t) (f := fun x => { x with cancelled := true }) rfl t'
        refine Or.inl ⟨rfl, hq.waitables, fun h hno hno' => hq.joined h (fun t' hs => ?_) hno',
          fun t' h hs => ?_, fun t' h hs hno => hq.gone t' h ((hsame t').trans hs) hno⟩
        · exact hno t' ((hsame t').symm.trans hs)
        · exact (hq.stream t' h hs).imp (hsame t').symm.trans id
    | none =>
      cases hok
      exact Or.inl ⟨rfl, Quiet.refl.setTask rfl⟩
    | waitable h =>
      let f : TaskState → TaskState := fun x => { x with sleepState := .woken }
      cases hc : (s.setTask t f).deliverWaitableEvent t h with
      | error m =>
        simp only [State.exec, State.callback] at hok
        rw [hc] at hok
        cases hok
      | ok r =>
        obtain ⟨c', s₁⟩ := r
        simp only [State.exec, State.callback] at hok
        rw [hc] at hok
        cases hok
        rcases deliver_cases none (f := f) (g := fun x => { x with phase := .delivered false })
          (fun _ => rfl) (fun _ => rfl) hallowed.2 hc with hq | ⟨p, hp, hdel⟩
        · exact Or.inl hq
        · exact Or.inr ⟨t, h, p, hp, hdel⟩
  | turn t =>
    obtain ⟨looped, hphase⟩ := hallowed
    simp only [State.exec, State.turn, hphase] at hok
    cases looped with
    | false =>
      cases hc : s.cancelInterTaskStreamRead t with
      | error m =>
        dsimp only at hok
        rw [hc] at hok
        cases hok
      | ok s₁ =>
        dsimp only at hok
        rw [hc] at hok
        cases hok
        exact Or.inl ⟨rfl, (cancelInterTaskStreamRead_ok hc).quiet.setTask rfl⟩
    | true =>
      cases hok
      exact Or.inl ⟨rfl, Quiet.refl.setTask rfl⟩
  | pollNext t inner =>
    have hq : ∀ {f : TaskState → TaskState} {n : Nat}, (f (s.task t)).stream = (s.task t).stream →
        s.Quiet { s.setTask t f with spawned := n } (Event.pollNext t inner).handle := fun {f n} hf =>
      .of_same (setTask_stream hf) rfl fun _ _ => rfl
    cases inner with
    | pending =>
      cases hok
      refine Or.inl ⟨rfl, ?_⟩
      dsimp only
      split
      · exact (hq (f := fun x => { x with tasks := x.tasks + s.spawned }) (n := 0) rfl).setTask rfl
      · exact hq (f := fun x => { x with tasks := x.tasks + s.spawned }) (n := 0) rfl
    | none =>
      simp only [State.exec, State.pollNext] at hok
      split at hok
      · cases hok
        exact Or.inl ⟨rfl, (hq (f := fun x => { x with tasks := x.tasks + s.spawned }) (n := 0) rfl).setTask rfl⟩
      · cases hok
    | finished =>
      cases hok
      exact Or.inl ⟨rfl, hq (f := fun x => { x with tasks := x.tasks - 1 + s.spawned }) (n := 0) rfl⟩
  | endTurn t remaining event h =>
    obtain ⟨⟨ready, hphase⟩, -, hd, -⟩ := hallowed
    have hidle := (hi.tasks t).not_reading (by rw [hphase]; simp) (by rw [hphase]; simp)
    rw [State.exec, hphase] at hok
    dsimp only at hok
    rw [State.endTurn] at hok
    split at hok
    · split at hok
      · cases remaining with
        | true =>
          cases hok
          exact Or.inl ⟨rfl, Quiet.refl.setTask rfl⟩
        | false =>
          simp only [Bool.false_eq_true, if_false] at hok
          cases hc : s.leave t .exit with
          | error m =>
            rw [hc] at hok
            cases hok
          | ok s₁ =>
            rw [hc] at hok
            cases hok
            exact Or.inl ⟨rfl, dropTask_quiet _ hc⟩
      · cases hok
    · split at hok
      · cases hok
      · split at hok
        · split at hok
          · rename_i h' hh'
            have hmem : h' ∈ event := by
              cases remaining with
              | true => exact hh'
              | false => cases hh'
            cases hc : s.deliverWaitableEvent t h' with
            | error m =>
              rw [hc] at hok
              cases hok
            | ok r =>
              obtain ⟨c', s₁⟩ := r
              rw [hc] at hok
              cases hok
              have hsame : s = s.setTask t id := by simp only [State.setTask, id, Function.update_eq_self]
              have hc' : (s.setTask t id).deliverWaitableEvent t h' = .ok (c, s₁) := by
                rw [← hsame]
                exact hc
              rcases deliver_cases (some h) (f := id) (g := fun x => { x with phase := .delivered true })
                (fun _ => rfl) (fun _ => rfl) (hd h' hmem) hc' with hq | ⟨p, hp, hdel⟩
              · exact Or.inl hq
              · exact Or.inr ⟨t, h', p, hp, hdel⟩
          · cases hok
            exact Or.inl ⟨rfl, Quiet.refl.setTask rfl⟩
        · cases hc : (s.setTask t fun x => { x with sleepState := .sleeping }).readInterTaskStream t h with
          | error m =>
            rw [hc] at hok
            cases hok
          | ok s₁ =>
            rw [hc] at hok
            cases hok
            have hself : (s.setTask t fun x => { x with sleepState := .sleeping }).task t =
                { s.task t with sleepState := .sleeping } := by simp only [State.setTask, Function.update_self]
            obtain ⟨h', hh', htask, hmaps, -⟩ :=
              readInterTaskStream_ok ((congrArg TaskState.streamReading hself).trans hidle) hc
            have hnew : (s₁.task t).stream = some h' := by rw [htask, Function.update_self]
            have hold : ∀ t', t' ≠ t → (s₁.task t').stream = (s.task t').stream := fun t' ht => by
              rw [htask, Function.update_of_ne ht]
              exact congrArg TaskState.stream (setTask_elsewhere _ t' ht)
            rw [hself] at hh'
            have hq : s.Quiet s₁ (some h) := by
              refine ⟨by rw [hmaps]; rfl, fun h₁ _ hno => ?_, fun t' h₁ hs => ?_, fun t' h₁ hs hno => ?_⟩
              · rw [hmaps]
                refine Function.update_of_ne ?_ ..
                rintro rfl
                exact hno t hnew
              · by_cases ht : t' = t
                · subst ht
                  obtain rfl := Option.some.inj (hnew.symm.trans hs)
                  exact hh'.imp id fun hx => by rw [hx.2]
                · exact Or.inl ((hold t' ht).symm.trans hs)
              · by_cases ht : t' = t
                · subst ht
                  rcases hh' with hx | ⟨hx, -⟩
                  · obtain rfl := Option.some.inj (hx.symm.trans hs)
                    exact absurd hnew (hno t')
                  · rw [hs] at hx
                    cases hx
                · exact absurd ((hold t' ht).trans hs) (hno t')
            exact Or.inl ⟨rfl, hq.setTask rfl⟩
  | dropFields t =>
    cases hok
    have hphase : (s.task t).phase = .dropping := hallowed
    have hidle := (hi.tasks t).not_reading (by rw [hphase]; simp) (by rw [hphase]; simp)
    refine Or.inl ⟨rfl, rfl, fun _ _ _ => rfl, fun t' h hs => ?_, fun t' h hs hno => ?_⟩
    · by_cases ht : t' = t
      · subst ht
        simp only [State.dropFields, State.setTask, Function.update_self] at hs
        cases hs
      · simp only [State.dropFields, State.setTask, Function.update_of_ne ht] at hs
        exact Or.inl hs
    · by_cases ht : t' = t
      · subst ht
        exact hi.joined_none hs hidle
      · have hno' := hno t'
        simp only [State.dropFields, State.setTask, Function.update_of_ne ht] at hno'
        exact absurd hs hno'
  | wake t =>
    cases hw : (s.task t).wake with
    | error m =>
      simp only [State.exec, State.wake, hw] at hok
      cases hok
    | ok x =>
      simp only [State.exec, State.wake, hw] at hok
      cases hok
      exact Or.inl ⟨rfl, Quiet.refl.setTask (wake_stream hw)⟩
  | spawn =>
    cases hok
    exact Or.inl ⟨rfl, .of_same (fun _ => rfl) rfl fun _ _ => rfl⟩
  | edit maps => exact absurd rfl (hedit maps)

end State

end Executor

end Rt

end WitBindgen
