import WitBindgen.Moonbit.Subtask

/-!
# The calls of a component

Any number of coroutines call imports asynchronously. A call that waits is the only one
with its handle, so the entry that an event finds in the map of the task is its own; a
call that has ended has none. Every step takes one call from its suspension to its next
one or to its end.
-/

namespace WitBindgen

namespace Moonbit

namespace Subtask

/-- A call that waits has its entry in the map of its task. Its event is one that the
host delivered, and took its handle out of the set for; without one it is in the set. -/
structure Call.Waiting (c : Call) (ready : Bool) : Prop extends c.Open where
  empty : c.event = none → c.joined = true ∧ c.delivered = false
  event : ∀ st, c.event = some st → c.joined = false ∧ ready = true ∧ st.leads c.status = true ∧
    c.delivered = st.terminal

/-- Between its suspensions a call has looked at its event. -/
structure Call.Busy (c : Call) : Prop extends c.Open where
  delivered : c.delivered = false
  event : c.event = none

namespace State

/-- All calls but `busy`, which the running coroutine is in, wait or have ended. -/
structure Inv (busy : Option CallId) (s : State) : Prop where
  sched : s.sched.Inv
  waits : ∀ c w, (s.sched.coros c).state = .suspend (.subtask w) → w < s.calls ∧ some w ≠ busy ∧
    (s.call w).coro = c ∧ (s.call w).Waiting (s.sched.coros c).ready ∧
    s.subscribers (s.call w).lane (s.call w).handle = some w
  ended : ∀ w < s.calls, some w ≠ busy →
    (s.sched.coros (s.call w).coro).state = .suspend (.subtask w) ∨ (s.call w).Ended
  ledger : ∀ w < s.calls, (s.call w).Ledger
  distinct : ∀ w < s.calls, ∀ u < s.calls, (s.call w).dropped = false → (s.call u).dropped = false →
    (s.call w).handle ≠ 0 → (s.call w).handle = (s.call u).handle → w = u
  entries : ∀ l n w, s.subscribers l n = some w →
    (s.sched.coros (s.call w).coro).state = .suspend (.subtask w) ∧ (s.call w).lane = l ∧ (s.call w).handle = n

variable {s : State} {busy : Option CallId} {w : CallId}

/-- Calls notice of the scheduler where their coroutines wait, and that these stay ready. -/
theorem Inv.withStates (h : s.Inv busy) {sched : Scheduler Waits} (hs : sched.Inv)
    (hst : ∀ c w, (sched.coros c).state = .suspend (.subtask w) ↔ (s.sched.coros c).state = .suspend (.subtask w))
    (hr : ∀ c w, (s.sched.coros c).state = .suspend (.subtask w) → (s.sched.coros c).ready = true →
      (sched.coros c).ready = true) : ({ s with sched := sched } : State).Inv busy where
  sched := hs
  waits c w hc := by
    have hstate := (hst c w).mp hc
    obtain ⟨hlt, hbusy, hcoro, hwait, hentry⟩ := h.waits c w hstate
    refine ⟨hlt, hbusy, hcoro, ⟨hwait.toOpen, hwait.empty, fun st hst => ?_⟩, hentry⟩
    obtain ⟨hjoined, hready, hall⟩ := hwait.event st hst
    exact ⟨hjoined, hr c w hstate hready, hall⟩
  ended w hw hne := (h.ended w hw hne).imp (hst _ w).mpr id
  ledger := h.ledger
  distinct := h.distinct
  entries l n w hw := by
    obtain ⟨hstate, hall⟩ := h.entries l n w hw
    exact ⟨(hst _ w).mpr hstate, hall⟩

theorem Inv.withSched (h : s.Inv busy) {sched : Scheduler Waits} (hs : sched.Inv)
    (hk : ∀ w, s.sched.Keeps sched (.subtask w)) : ({ s with sched := sched } : State).Inv busy :=
  h.withStates hs (fun c w => (hk w).state c) fun c w => (hk w).ready c

/-! ## Within a step -/

/-- The call that runs changes, and keeps its handle. -/
theorem Inv.update (h : s.Inv (some w)) {f : Call → Call} (hledger : (s.call w).Ledger → (f (s.call w)).Ledger)
    (hkeep : (f (s.call w)).handle = (s.call w).handle ∧
      ((s.call w).dropped = true → (f (s.call w)).dropped = true)) : (s.update w f).Inv (some w) := by
  have hother : ∀ u, u ≠ w → (s.update w f).call u = s.call u := fun u hu => Function.update_of_ne hu _ _
  have hself : (s.update w f).call w = f (s.call w) := Function.update_self ..
  have hwaits : ∀ c u, (s.sched.coros c).state = .suspend (.subtask u) → u ≠ w := fun c u hc => by
    rintro rfl
    exact (h.waits c u hc).2.1 rfl
  constructor
  · exact h.sched
  · intro c u hc
    rw [hother u (hwaits c u hc)]
    exact h.waits c u hc
  · intro u hu hne
    have huw : u ≠ w := fun heq => hne (congrArg some heq)
    rw [hother u huw]
    exact h.ended u hu hne
  · intro u hu
    by_cases huw : u = w
    · subst huw
      rw [hself]
      exact hledger (h.ledger u hu)
    · rw [hother u huw]
      exact h.ledger u hu
  · intro u hu v hv hud hvd hzero heq
    have hhandle : ∀ x, ((s.update w f).call x).handle = (s.call x).handle := fun x => by
      by_cases hx : x = w
      · subst hx; rw [hself, hkeep.1]
      · rw [hother x hx]
    have hdropped : ∀ x, ((s.update w f).call x).dropped = false → (s.call x).dropped = false := fun x hxd => by
      by_cases hx : x = w
      · subst hx
        rw [hself] at hxd
        cases hold : (s.call x).dropped with
        | false => rfl
        | true => rw [hkeep.2 hold] at hxd; cases hxd
      · rw [hother x hx] at hxd
        exact hxd
    rw [hhandle] at hzero heq
    rw [hhandle] at heq
    exact h.distinct u hu v hv (hdropped u hud) (hdropped v hvd) hzero heq
  · intro l n u hu
    obtain ⟨hstate, hall⟩ := h.entries l n u hu
    rw [hother u (hwaits _ u hstate)]
    exact ⟨hstate, hall⟩

/-- The handle of a call that runs has no entry, so that removing it changes nothing. -/
theorem Inv.no_entry (h : s.Inv (some w)) (hw : w < s.calls) (hdropped : (s.call w).dropped = false)
    (hhandle : (s.call w).handle ≠ 0) (l : Lane) : s.subscribers l (s.call w).handle = none := by
  cases hentry : s.subscribers l (s.call w).handle with
  | none => rfl
  | some u =>
    obtain ⟨hstate, -, hsame⟩ := h.entries l _ u hentry
    obtain ⟨hu, hbusy, -, hwait, -⟩ := h.waits _ u hstate
    have heq := h.distinct w hw u hu hdropped hwait.dropped hhandle hsame.symm
    exact absurd (congrArg some heq.symm) hbusy

theorem subscribe_none (l : Lane) (n : Nat) (h : s.subscribers l n = none) : s.subscribe l n none = s := by
  have hsame : Function.update (s.subscribers l) n none = s.subscribers l := by
    rw [← h, Function.update_eq_self]
  rw [subscribe, hsame, Function.update_eq_self]

theorem Inv.detach (h : s.Inv (some w)) (hw : w < s.calls) (hdropped : (s.call w).dropped = false)
    (hhandle : (s.call w).handle ≠ 0) : s.detach w = s.update w (Call.waitableJoin false) := by
  rw [State.detach, subscribe_none _ _ (h.no_entry hw hdropped hhandle _)]

@[simp] theorem update_call (f : Call → Call) : (s.update w f).call w = f (s.call w) :=
  Function.update_self ..

@[simp] theorem update_calls (f : Call → Call) : (s.update w f).calls = s.calls := rfl
@[simp] theorem update_sched (f : Call → Call) : (s.update w f).sched = s.sched := rfl

theorem update_update (f g : Call → Call) : (s.update w f).update w g = s.update w (g ∘ f) := by
  rw [update, update, update]
  dsimp only
  rw [Function.update_idem, Function.update_self]
  rfl

/-- The call that ran has ended. -/
theorem Inv.leave (h : s.Inv (some w)) (hended : (s.call w).Ended) : s.Inv none where
  sched := h.sched
  waits c u hc := by
    obtain ⟨hlt, -, hall⟩ := h.waits c u hc
    exact ⟨hlt, nofun, hall⟩
  ended u hu _ := by
    by_cases huw : u = w
    · subst huw
      exact Or.inr hended
    · exact h.ended u hu fun heq => huw (Option.some.inj heq)
  ledger := h.ledger
  distinct := h.distinct
  entries := h.entries

end State

/-- A call that has seen its last state, and dropped `n` results, before its handle is
dropped. -/
structure Call.Closing (n : Nat) (c : Call) : Prop where
  dropped : c.dropped = false
  handle : c.handle ≠ 0
  status : c.status ∈ c.told ∧ c.status.terminal = true
  delivered : c.delivered = true
  results : c.effects.count .dropResult = n
  drops : c.effects.filter Effect.isDrop = []
  cancels : c.effects.countP Effect.isCancel ≤ 1 ∧ Effect.cancel true ∉ c.effects

namespace Call

variable {c : Call} {n : Nat}

theorem Ledger.leave (h : c.Ledger) (o : Outcome) : (c.leave o).Ledger where
  told := h.told
  settles := by
    rw [Call.leave, List.filterMap_append]
    exact (List.append_nil _).trans h.settles
  cleaned := h.cleaned

theorem Closing.leave (h : c.Closing n) (hjoined : c.joined = false) {o : Outcome}
    (hn : n = if o = .cancelled ∧ c.status = .Returned then 1 else 0) : (c.leave o).Ended where
  ended := nofun
  dropped _ := rfl
  joined := hjoined
  status := h.status
  results := by
    rw [Call.leave, List.count_append, h.results, hn]
    exact (Nat.add_zero _).trans (if_congr (and_congr_left' Option.some_inj.symm) rfl rfl)
  drops := by
    rw [Call.leave, List.filter_append, h.drops, hjoined, h.delivered, if_pos h.handle]
    rfl
  cancels := by
    rw [Call.leave, List.countP_append, List.mem_append]
    exact ⟨h.cancels.1, fun hmem => hmem.elim h.cancels.2 fun hin => nomatch List.mem_singleton.mp hin⟩

theorem Ledger.dropResult (h : c.Ledger) : c.dropResult.Ledger where
  told := h.told
  settles := by
    rw [Call.dropResult, List.filterMap_append]
    exact (List.append_nil _).trans h.settles
  cleaned := h.cleaned

theorem Closing.dropResult (h : c.Closing n) : c.dropResult.Closing (n + 1) :=
  { h with
    results := by
      rw [Call.dropResult, List.count_append, h.results]
      rfl
    drops := by
      rw [Call.dropResult, List.filter_append, h.drops]
      rfl
    cancels := by
      rw [Call.dropResult, List.countP_append, List.mem_append]
      exact ⟨h.cancels.1, fun hmem => hmem.elim h.cancels.2 fun hin => nomatch List.mem_singleton.mp hin⟩ }

theorem Ledger.cancel (h : c.Ledger) {reply : SubTaskState} (hreply : c.status.leads reply = true) :
    (c.cancel reply).Ledger where
  told st hst := SubTaskState.leads_trans (h.told st hst) hreply
  settles := by
    rw [Call.cancel, List.filterMap_append]
    exact (List.append_nil _).trans h.settles
  cleaned := h.cleaned

/-- The last state is looked at. -/
theorem closing_settle (hdropped : c.dropped = false) (hhandle : c.handle ≠ 0) (hterminal : c.status.terminal = true)
    (hdelivered : c.delivered = true) (hresults : c.effects.count .dropResult = 0)
    (hdrops : c.effects.filter Effect.isDrop = [])
    (hcancels : c.effects.countP Effect.isCancel ≤ 1 ∧ Effect.cancel true ∉ c.effects) :
    (c.settleArguments c.status).Closing 0 := by
  have heffects := c.settleArguments_effects c.status
  refine ⟨?_, ?_, ⟨?_, ?_⟩, ?_, ?_, ?_, ?_⟩
  · rw [settleArguments_dropped]; exact hdropped
  · rw [settleArguments_handle]; exact hhandle
  · rw [settleArguments_told, settleArguments_status]
    exact List.mem_append_right _ (List.mem_singleton_self _)
  · rw [settleArguments_status]; exact hterminal
  · rw [settleArguments_delivered]; exact hdelivered
  all_goals rcases heffects with heff | ⟨rejected, heff⟩ <;> rw [heff]
  · exact hresults
  · rw [List.count_append, hresults]; rfl
  · exact hdrops
  · rw [List.filter_append, hdrops]; rfl
  · exact hcancels
  · rw [List.countP_append, List.mem_append, List.mem_singleton]
    exact ⟨hcancels.1, fun hmem => hmem.elim hcancels.2 nofun⟩

/-- The last state came as an event, or with the handle. -/
theorem Open.closing (h : c.Open) (hterminal : c.status.terminal = true) (hdelivered : c.delivered = true) :
    (c.settleArguments c.status).Closing 0 :=
  closing_settle h.dropped h.handle hterminal hdelivered h.quiet.no_results h.quiet.no_drops
    ⟨h.quiet.no_cancels ▸ Nat.zero_le _, h.quiet.not_cancelled true⟩

/-- The last state is the answer to a cancellation. -/
theorem Busy.closing (h : c.Busy) {reply : SubTaskState} (hterminal : reply.terminal = true) :
    ((c.cancel reply).settleArguments reply).Closing 0 := by
  refine closing_settle (c := c.cancel reply) h.dropped h.handle hterminal rfl ?_ ?_ ⟨?_, ?_⟩
  · rw [Call.cancel, List.count_append, h.quiet.no_results]; rfl
  · rw [Call.cancel, List.filter_append, h.quiet.no_drops]; rfl
  · rw [Call.cancel, List.countP_append, h.quiet.no_cancels]; exact Nat.le_refl _
  · rw [Call.cancel, h.delivered, List.mem_append, List.mem_singleton]
    exact fun hmem => hmem.elim (h.quiet.not_cancelled true) nofun

end Call

namespace State

variable {s : State} {w : CallId}

/-! ## The ends of a call -/

/-- A call drops its handle, once it is in no set. -/
theorem Inv.close (h : s.Inv (some w)) (hw : w < s.calls) {n : Nat} (hc : (s.call w).Closing n) {o : Outcome}
    (hn : n = if o = .cancelled ∧ (s.call w).status = .Returned then 1 else 0) :
    ((s.detach w).update w (Call.leave o)).Inv none := by
  rw [h.detach hw hc.dropped hc.handle, update_update]
  have hinv : (s.update w (Call.leave o ∘ Call.waitableJoin false)).Inv (some w) :=
    h.update (fun hl => Call.Ledger.leave (c := (s.call w).waitableJoin false) { hl with } o) ⟨rfl, fun _ => rfl⟩
  refine hinv.leave ?_
  rw [update_call]
  exact Call.Closing.leave (c := (s.call w).waitableJoin false) { hc with } rfl hn

/-- A call that is cancelled drops a result that is there. -/
theorem Inv.abandon (h : s.Inv (some w)) (hw : w < s.calls) (hc : (s.call w).Closing 0) :
    ∃ s', s.abandon w (s.call w).status = some s' ∧ s'.Inv none := by
  have hterminal := hc.status.2
  cases hst : (s.call w).status with
  | Starting => rw [hst] at hterminal; cases hterminal
  | Started => rw [hst] at hterminal; cases hterminal
  | Returned =>
    have hinv : (s.update w Call.dropResult).Inv (some w) := h.update (·.dropResult) ⟨rfl, id⟩
    refine ⟨_, rfl, hinv.close hw (n := 1) ?_ ?_⟩
    · rw [update_call]
      exact hc.dropResult
    · rw [update_call, if_pos ⟨rfl, hst⟩]
  | Cancelled_before_started => exact ⟨_, rfl, h.close hw hc (by rw [hst, if_neg (nomatch ·.2)])⟩
  | Cancelled_before_returned => exact ⟨_, rfl, h.close hw hc (by rw [hst, if_neg (nomatch ·.2)])⟩

theorem Inv.requestCancel (h : s.Inv (some w)) (hw : w < s.calls) (hc : (s.call w).Busy) {reply : SubTaskState}
    (hreply : (s.call w).status.answers reply) : ∃ s', s.requestCancel w reply = .ok s' ∧ s'.Inv none := by
  rw [State.requestCancel, update_update]
  have hinv : (s.update w (Call.settleArguments reply ∘ Call.cancel reply)).Inv (some w) := by
    refine h.update (fun hl => (hl.cancel hreply.2).settle (SubTaskState.leads_refl reply)) ⟨?_, fun hd => ?_⟩
    · rw [Function.comp_apply, Call.settleArguments_handle]
      rfl
    · rw [hc.dropped] at hd
      cases hd
  obtain ⟨s', hs', hok⟩ := hinv.abandon hw (by rw [update_call]; exact hc.closing hreply.1)
  rw [update_call, Function.comp_apply, Call.settleArguments_status] at hs'
  have hs'' : (s.update w (Call.settleArguments reply ∘ Call.cancel reply)).abandon w reply = some s' := hs'
  rw [hs'']
  exact ⟨s', rfl, hok⟩

theorem Inv.abort (h : s.Inv (some w)) (hw : w < s.calls) (hc : (s.call w).Open)
    (hevent : ∀ st, (s.call w).event = some st →
      st.leads (s.call w).status = true ∧ (s.call w).delivered = st.terminal)
    (hempty : (s.call w).event = none → (s.call w).delivered = false) {reply : SubTaskState}
    (hreply : (s.call w).status.answers reply) : ∃ s', s.abort w reply = .ok s' ∧ s'.Inv none := by
  rw [State.abort]
  split
  · rename_i st hst
    obtain ⟨hleads, hdelivered⟩ := hevent st hst
    have hinv : (s.update w (Call.settleArguments st)).Inv (some w) :=
      h.update (·.settle hleads) ⟨Call.settleArguments_handle, fun hd => by rw [hc.dropped] at hd; cases hd⟩
    cases hterminal : st.terminal with
    | true =>
      have hlast := SubTaskState.leads_terminal hterminal hleads
      have hclosing := hc.closing (by rw [hlast]; exact hterminal) (hdelivered.trans hterminal)
      rw [hlast] at hclosing
      obtain ⟨s', hs', hok⟩ := hinv.abandon hw (by rw [update_call]; exact hclosing)
      rw [update_call, Call.settleArguments_status, hlast] at hs'
      dsimp only
      rw [hs']
      exact ⟨s', rfl, hok⟩
    | false =>
      have hnone : (s.update w (Call.settleArguments st)).abandon w st = none := by
        revert hterminal
        cases st <;> first | exact fun _ => rfl | exact nofun
      dsimp only
      rw [hnone]
      dsimp only
      have hforget : ((s.update w (Call.settleArguments st)).update w Call.forget).Inv (some w) :=
        hinv.update (fun hl => { hl with }) ⟨rfl, id⟩
      have hopen := hc.settle st
      refine hforget.requestCancel hw ?_ ?_
      · rw [update_call, update_call]
        exact {
          ended := hopen.ended
          dropped := hopen.dropped
          handle := hopen.handle
          quiet := hopen.quiet
          delivered := by rw [Call.forget, Call.settleArguments_delivered]; exact hdelivered.trans hterminal
          event := rfl }
      · rw [update_call, update_call]
        rw [Call.forget, Call.settleArguments_status]
        exact hreply
  · rename_i hnone
    exact h.requestCancel hw ⟨hc, hempty hnone, hnone⟩ hreply

/-! ## Waiting -/

theorem detach_entry (f : Call → Call) (hlane : (f (s.call w)).lane = (s.call w).lane)
    (hhandle : (f (s.call w)).handle = (s.call w).handle)
    (hnone : s.subscribers (s.call w).lane (s.call w).handle = none) :
    ((s.subscribe (s.call w).lane (s.call w).handle (some w)).update w f).detach w =
      s.update w (Call.waitableJoin false ∘ f) := by
  have hsame : Function.update (s.subscribers (s.call w).lane) (s.call w).handle none =
      s.subscribers (s.call w).lane := by
    rw [← hnone, Function.update_eq_self]
  rw [State.detach, update_call]
  simp only [subscribe, update, Function.update_self, Function.update_idem, hlane, hhandle]
  rw [hsame, Function.update_eq_self]
  rfl

/-- A call registers its handle and suspends, unless it is cancelled. -/
theorem Inv.await (h : s.Inv (some w)) (hw : w < s.calls) (hc : (s.call w).Busy) {c : CoroId}
    (hcoro : (s.call w).coro = c) (hcurr : s.sched.currCoro = some c) {reply : SubTaskState}
    (hreply : (s.call w).status.answers reply) : ∃ s', s.await c w reply = .ok s' ∧ s'.Inv none := by
  have hrun := (h.sched.running c).mpr hcurr
  have hnone := h.no_entry hw hc.dropped hc.handle (s.call w).lane
  rw [State.await, hnone]
  dsimp only
  split
  · rw [State.cancelled, detach_entry _ rfl rfl hnone]
    have hinv : (s.update w (Call.waitableJoin false ∘ Call.waitableJoin true)).Inv (some w) :=
      h.update (fun hl => { hl with }) ⟨rfl, id⟩
    refine hinv.abort hw ?_ ?_ ?_ ?_ <;> rw [update_call]
    · exact { hc.toOpen with }
    · intro st hst
      have hevent : (s.call w).event = some st := hst
      rw [hc.event] at hevent
      cases hevent
    · exact fun _ => hc.delivered
    · exact hreply
  · have hother : ∀ d, d ≠ c → (s.sched.suspend c (.subtask w)).coros d = s.sched.coros d := fun d hd => by
      simp only [Scheduler.suspend, Scheduler.set, Function.update_of_ne hd]
    have hself : (s.sched.suspend c (.subtask w)).coros c =
        { s.sched.coros c with state := .suspend (.subtask w) } := by
      simp only [Scheduler.suspend, Scheduler.set, Function.update_self]
    have hwaits : ∀ d u, (s.sched.coros d).state = .suspend (.subtask u) → d ≠ c ∧ u ≠ w := fun d u hd => by
      refine ⟨?_, ?_⟩
      · rintro rfl
        rw [hrun] at hd
        cases hd
      · rintro rfl
        exact (h.waits d u hd).2.1 rfl
    have hsleeps : ∀ d u, ((s.sched.suspend c (.subtask w)).coros d).state = .suspend (.subtask u) →
        d = c ∧ u = w ∨ d ≠ c ∧ (s.sched.coros d).state = .suspend (.subtask u) := fun d u hd => by
      by_cases hdc : d = c
      · subst hdc
        rw [hself] at hd
        cases hd
        exact Or.inl ⟨rfl, rfl⟩
      · rw [hother d hdc] at hd
        exact Or.inr ⟨hdc, hd⟩
    have hcall : ∀ u, u ≠ w → Function.update s.call w (Call.waitableJoin true (s.call w)) u = s.call u :=
      fun u hu => Function.update_of_ne hu _ _
    have hcallw : Function.update s.call w (Call.waitableJoin true (s.call w)) w =
        Call.waitableJoin true (s.call w) := Function.update_self ..
    have hentry : ∀ l n u, Function.update s.subscribers (s.call w).lane
        (Function.update (s.subscribers (s.call w).lane) (s.call w).handle (some w)) l n = some u ↔
        (u = w ∧ l = (s.call w).lane ∧ n = (s.call w).handle) ∨ s.subscribers l n = some u := fun l n u => by
      by_cases hl : l = (s.call w).lane
      · subst hl
        rw [Function.update_self]
        by_cases hn : n = (s.call w).handle
        · subst hn
          rw [Function.update_self, hnone, Option.some_inj]
          exact ⟨fun heq => Or.inl ⟨heq.symm, rfl, rfl⟩, fun hor => hor.elim (fun hand => hand.1.symm) (by simp)⟩
        · rw [Function.update_of_ne hn]
          exact ⟨Or.inr, fun hor => hor.elim (fun hand => absurd hand.2.2 hn) id⟩
      · rw [Function.update_of_ne hl]
        exact ⟨Or.inr, fun hor => hor.elim (fun hand => absurd hand.2.1 hl) id⟩
    refine ⟨_, rfl, ?_⟩
    simp only [State.update, State.subscribe]
    constructor
    · exact h.sched.leave hcurr (by simp)
    · intro d u hd
      rcases hsleeps d u hd with ⟨rfl, rfl⟩ | ⟨hdc, hold⟩
      · dsimp only
        rw [hcallw]
        refine ⟨hw, by simp, hcoro, ⟨{ hc.toOpen with }, fun _ => ⟨rfl, hc.delivered⟩, fun st hst => ?_⟩,
          (hentry _ _ _).mpr (Or.inl ⟨rfl, rfl, rfl⟩)⟩
        have hevent : (s.call u).event = some st := hst
        rw [hc.event] at hevent
        cases hevent
      · obtain ⟨hlt, -, hucoro, hwait, hent⟩ := h.waits d u hold
        dsimp only
        rw [hcall u (hwaits d u hold).2, hother d hdc]
        exact ⟨hlt, by simp, hucoro, hwait, (hentry _ _ _).mpr (Or.inr hent)⟩
    · intro u hu _
      dsimp only
      by_cases huw : u = w
      · subst huw
        rw [hcallw]
        refine Or.inl ?_
        rw [Call.waitableJoin, hcoro, hself]
      · rw [hcall u huw]
        refine (h.ended u hu fun heq => huw (Option.some.inj heq)).imp (fun hstate => ?_) id
        rw [hother _ (hwaits _ u hstate).1]
        exact hstate
    · intro u hu
      dsimp only
      by_cases huw : u = w
      · subst huw
        rw [hcallw]
        exact { h.ledger u hu with }
      · rw [hcall u huw]
        exact h.ledger u hu
    · intro u hu v hv hud hvd hzero heq
      have hdropped : ∀ x, (Function.update s.call w (Call.waitableJoin true (s.call w)) x).dropped =
          (s.call x).dropped := fun x => by
        by_cases hx : x = w
        · subst hx; rw [hcallw]; rfl
        · rw [hcall x hx]
      have hhandle : ∀ x, (Function.update s.call w (Call.waitableJoin true (s.call w)) x).handle =
          (s.call x).handle := fun x => by
        by_cases hx : x = w
        · subst hx; rw [hcallw]; rfl
        · rw [hcall x hx]
      dsimp only at hud hvd hzero heq
      rw [hdropped] at hud hvd
      rw [hhandle] at hzero heq
      rw [hhandle] at heq
      exact h.distinct u hu v hv hud hvd hzero heq
    · intro l n u hu
      rcases (hentry l n u).mp hu with ⟨rfl, rfl, rfl⟩ | hold
      · dsimp only
        rw [hcallw]
        refine ⟨?_, rfl, rfl⟩
        rw [Call.waitableJoin, hcoro, hself]
      · obtain ⟨hstate, hall⟩ := h.entries l n u hold
        dsimp only
        rw [hcall u (hwaits _ u hstate).2, hother _ (hwaits _ u hstate).1]
        exact ⟨hstate, hall⟩

/-! ## Steps -/

/-- The coroutine of a waiting call goes on, and takes its entry out of the map. -/
theorem Inv.take (h : s.Inv none) {c : CoroId} (hc : (s.sched.coros c).state = .suspend (.subtask w))
    {sched : Scheduler Waits} (hs : sched.Inv) (hother : ∀ d, d ≠ c → sched.coros d = s.sched.coros d)
    (hnew : ∀ u, (sched.coros c).state ≠ .suspend (.subtask u)) :
    (({ s with sched := sched } : State).subscribe (s.call w).lane (s.call w).handle none).Inv (some w) := by
  obtain ⟨hlt, -, hcoro, hwait, hentry⟩ := h.waits c w hc
  have hnotc : ∀ d u, (sched.coros d).state = .suspend (.subtask u) →
      d ≠ c ∧ u ≠ w ∧ (s.sched.coros d).state = .suspend (.subtask u) := fun d u hd => by
    have hdc : d ≠ c := by
      rintro rfl
      exact hnew u hd
    rw [hother d hdc] at hd
    refine ⟨hdc, ?_, hd⟩
    rintro rfl
    exact hdc ((h.waits d u hd).2.2.1.symm.trans hcoro)
  have hentries : ∀ l n u, u ≠ w → s.subscribers l n = some u →
      Function.update s.subscribers (s.call w).lane
        (Function.update (s.subscribers (s.call w).lane) (s.call w).handle none) l n = some u :=
    fun l n u hu hent => by
      by_cases hl : l = (s.call w).lane
      · subst hl
        rw [Function.update_self]
        by_cases hn : n = (s.call w).handle
        · subst hn
          rw [hentry] at hent
          cases hent
          exact absurd rfl hu
        · rw [Function.update_of_ne hn]
          exact hent
      · rw [Function.update_of_ne hl]
        exact hent
  constructor
  · exact hs
  · intro d u hd
    obtain ⟨hdc, huw, hold⟩ := hnotc d u hd
    obtain ⟨hult, -, hucoro, huwait, huentry⟩ := h.waits d u hold
    refine ⟨hult, fun heq => huw (Option.some.inj heq), hucoro, ?_, hentries _ _ u huw huentry⟩
    have hsame := hother d hdc
    simp only [State.subscribe]
    rw [hsame]
    exact huwait
  · intro u hu hne
    refine (h.ended u hu nofun).imp (fun hstate => ?_) id
    simp only [State.subscribe]
    rw [hother]
    · exact hstate
    · intro heq
      rw [heq, hc] at hstate
      cases hstate
      exact hne rfl
  · exact h.ledger
  · exact h.distinct
  · intro l n u hu
    have hold : s.subscribers l n = some u ∧ u ≠ w := by
      simp only [State.subscribe] at hu
      by_cases hl : l = (s.call w).lane
      · subst hl
        rw [Function.update_self] at hu
        by_cases hn : n = (s.call w).handle
        · subst hn
          rw [Function.update_self] at hu
          cases hu
        · rw [Function.update_of_ne hn] at hu
          refine ⟨hu, ?_⟩
          rintro rfl
          exact hn (h.entries _ _ _ hu).2.2.symm
      · rw [Function.update_of_ne hl] at hu
        refine ⟨hu, ?_⟩
        rintro rfl
        exact hl (h.entries _ _ _ hu).2.1.symm
    obtain ⟨hstate, hall⟩ := h.entries l n u hold.1
    refine ⟨?_, hall⟩
    simp only [State.subscribe]
    rw [hother]
    · exact hstate
    · intro heq
      rw [heq, hc] at hstate
      cases hstate
      exact hold.2 rfl

theorem Inv.consume (h : s.Inv (some w)) (hw : w < s.calls) {ready : Bool} (hc : (s.call w).Waiting ready)
    {c : CoroId} (hcoro : (s.call w).coro = c) (hcurr : s.sched.currCoro = some c) {reply : SubTaskState}
    (hreply : (s.call w).status.answers reply) : ∃ s', s.consume c w reply = .ok s' ∧ s'.Inv none := by
  rw [State.consume]
  split
  · rename_i st hst
    obtain ⟨-, -, hleads, hdelivered⟩ := hc.event st hst
    have hinv : (s.update w (Call.settleArguments st)).Inv (some w) :=
      h.update (·.settle hleads) ⟨Call.settleArguments_handle, fun hd => by rw [hc.dropped] at hd; cases hd⟩
    cases hterminal : st.terminal with
    | true =>
      have hlast := SubTaskState.leads_terminal hterminal hleads
      have hclosing := hc.closing (by rw [hlast]; exact hterminal) (hdelivered.trans hterminal)
      rw [hlast] at hclosing
      have hclose : ∀ o, o ≠ .cancelled →
          (((s.update w (Call.settleArguments st)).detach w).update w (Call.leave o)).Inv none := fun o ho =>
        hinv.close hw (by rw [update_call]; exact hclosing) (by rw [if_neg fun hand => ho hand.1])
      revert hterminal
      cases st with
      | Starting => nofun
      | Started => nofun
      | Returned => exact fun _ => ⟨_, rfl, hclose _ nofun⟩
      | Cancelled_before_started => exact fun _ => ⟨_, rfl, hclose _ nofun⟩
      | Cancelled_before_returned => exact fun _ => ⟨_, rfl, hclose _ nofun⟩
    | false =>
      have hnone : outcome st = none := by
        revert hterminal
        cases st <;> first | exact fun _ => rfl | exact nofun
      dsimp only
      rw [hnone]
      dsimp only
      have hforget : ((s.update w (Call.settleArguments st)).update w Call.forget).Inv (some w) :=
        hinv.update (fun hl => { hl with }) ⟨rfl, id⟩
      have hopen := hc.toOpen.settle st
      refine hforget.await hw ?_ ?_ hcurr ?_ <;> rw [update_call, update_call]
      · exact {
          ended := hopen.ended
          dropped := hopen.dropped
          handle := hopen.handle
          quiet := hopen.quiet
          delivered := by rw [Call.forget, Call.settleArguments_delivered]; exact hdelivered.trans hterminal
          event := rfl }
      · rw [Call.forget, Call.settleArguments_coro]
        exact hcoro
      · rw [Call.forget, Call.settleArguments_status]
        exact hreply
  · rename_i hnone
    exact h.await hw ⟨hc.toOpen, (hc.empty hnone).2, hnone⟩ hcoro hcurr hreply

theorem Inv.resume (h : s.Inv none) (hcurr : s.sched.currCoro = none) (lane : Lane) {reply : SubTaskState}
    (hreply : ∀ c w, (s.sched.runLater lane).head? = some c → (s.sched.coros c).state = .suspend (.subtask w) →
      (s.call w).status.answers reply) : ∃ s', s.resume lane reply = .ok s' ∧ s'.Inv none := by
  have hs := h.sched.reschedule hcurr lane
  rw [State.resume]
  split
  · exact ⟨s, rfl, h⟩
  · rename_i c rest hqueue
    have hother := fun d (hd : d ≠ c) => s.sched.reschedule_other hqueue hd
    have hcoro := s.sched.reschedule_first hqueue
    dsimp only
    split
    · rename_i w hc
      rw [hc] at hcoro
      obtain ⟨hlt, -, hwcoro, hwait, -⟩ := h.waits c w hc
      have hanswer := hreply c w (by rw [hqueue]; rfl) hc
      have hrun : ((s.sched.reschedule lane).coros c).state = .running := by rw [hcoro]
      have hinv := h.take hc hs hother (by rw [hcoro]; nofun)
      have hcurr' := (hs.running c).mp hrun
      split
      · rw [State.cancelled, State.detach]
        have hjoin : ((({ s with sched := s.sched.reschedule lane } : State).subscribe (s.call w).lane
            (s.call w).handle none).update w (Call.waitableJoin false)).Inv (some w) :=
          hinv.update (fun hl => { hl with }) ⟨rfl, id⟩
        refine hjoin.abort hlt ?_ ?_ ?_ ?_ <;> rw [update_call]
        · exact { hwait.toOpen with }
        · exact fun st hst => (hwait.event st hst).2.2
        · exact fun hnone => (hwait.empty hnone).2
        · exact hanswer
      · exact hinv.consume hlt hwait hwcoro hcurr' hanswer
    · rename_i hc
      rw [hc] at hcoro
      refine ⟨_, rfl, h.withSched (hs.set rfl rfl rfl) fun w =>
        .update (c := c) (x := { (s.sched.reschedule lane).coros c with shielded := false }) (funext fun d => ?_) ?_ ?_⟩
      · dsimp only [Scheduler.shield, Scheduler.set]
        by_cases hd : d = c
        · subst hd; rw [Function.update_self, Function.update_self]
        · rw [Function.update_of_ne hd, Function.update_of_ne hd, hother d hd]
      · rw [hc]; nofun
      · rw [hcoro]; nofun
    · rename_i hnocall _
      exact ⟨_, rfl, h.withSched hs fun w => .reschedule hqueue (hnocall w)⟩

/-- The call of a new subtask. -/
theorem Inv.begin (h : s.Inv none) (call : Call) (hnew : call.told = [] ∧ call.effects = [] ∧ call.cleaned = false)
    (hfresh : call.handle ≠ 0 → ∀ w < s.calls, (s.call w).dropped = false → (s.call w).handle ≠ call.handle) :
    ({ s with calls := s.calls + 1, call := Function.update s.call s.calls call } : State).Inv (some s.calls) := by
  have hother : ∀ u, u < s.calls → Function.update s.call s.calls call u = s.call u := fun u hu =>
    Function.update_of_ne (Nat.ne_of_lt hu) _ _
  have hcases : ∀ u, u < s.calls + 1 → u < s.calls ∨ u = s.calls := fun u hu => Nat.lt_succ_iff_lt_or_eq.mp hu
  have hself : Function.update s.call s.calls call s.calls = call := Function.update_self ..
  constructor
  · exact h.sched
  · intro c u hc
    obtain ⟨hlt, -, hall⟩ := h.waits c u hc
    dsimp only
    rw [hother u hlt]
    exact ⟨Nat.lt_succ_of_lt hlt, fun heq => Nat.ne_of_lt hlt (Option.some.inj heq), hall⟩
  · intro u hu hne
    have hlt : u < s.calls := (hcases u hu).resolve_right fun heq => hne (congrArg some heq)
    dsimp only
    rw [hother u hlt]
    exact h.ended u hlt nofun
  · intro u hu
    dsimp only
    rcases hcases u hu with hlt | rfl
    · rw [hother u hlt]
      exact h.ledger u hlt
    · rw [hself]
      obtain ⟨htold, heffects, hcleaned⟩ := hnew
      constructor
      · rw [htold]; nofun
      · rw [htold, heffects]; rfl
      · rw [htold, hcleaned]; rfl
  · intro u hu v hv hud hvd hzero heq
    dsimp only at hud hvd hzero heq
    rcases hcases u hu with hult | rfl
    · rw [hother u hult] at hud hzero heq
      rcases hcases v hv with hvlt | rfl
      · rw [hother v hvlt] at hvd heq
        exact h.distinct u hult v hvlt hud hvd hzero heq
      · rw [hself] at heq
        exact absurd heq (hfresh (heq ▸ hzero) u hult hud)
    · rw [hself] at hzero heq
      rcases hcases v hv with hvlt | rfl
      · rw [hother v hvlt] at hvd heq
        exact absurd heq.symm (hfresh hzero v hvlt hvd)
      · rfl
  · intro l n u hu
    obtain ⟨hstate, hall⟩ := h.entries l n u hu
    dsimp only
    rw [hother u (h.waits _ u hstate).1]
    exact ⟨hstate, hall⟩

theorem Inv.suspendForSubtask (h : s.Inv none) {c : CoroId} (hcurr : s.sched.currCoro = some c) {handle : Nat}
    {st reply : SubTaskState} (hanswer : st.answers reply) (hzero : handle = 0 → st.terminal = true)
    (hfresh : handle ≠ 0 → ∀ w < s.calls, (s.call w).dropped = false → (s.call w).handle ≠ handle) :
    ∃ s', s.suspendForSubtask c handle st reply = .ok s' ∧ s'.Inv none := by
  rw [State.suspendForSubtask.eq_def]
  dsimp only
  generalize hcall : (⟨handle, c, (s.sched.coros c).lane, st, false, st.terminal, false, false, none, false, [], [],
    none⟩ : Call) = call
  have hhandle : call.handle = handle := by rw [← hcall]
  have hinv := h.begin call (by rw [← hcall]; exact ⟨rfl, rfl, rfl⟩) (by rw [hhandle]; exact hfresh)
  have hlast : s.calls < s.calls + 1 := Nat.lt_succ_self _
  have hstatus : call.status = st := by rw [← hcall]
  generalize ht : ({ s with calls := s.calls + 1, call := Function.update s.call s.calls call } : State) = t at hinv ⊢
  have htcall : t.call s.calls = call := by rw [← ht]; exact Function.update_self ..
  have htcalls : s.calls < t.calls := by rw [← ht]; exact hlast
  have htcurr : t.sched.currCoro = some c := by rw [← ht]; exact hcurr
  have hsettle : (t.update s.calls (Call.settleArguments st)).Inv (some s.calls) := by
    refine hinv.update (fun hl => hl.settle ?_) ⟨Call.settleArguments_handle, fun hd => ?_⟩
    · rw [htcall, hstatus]
      exact SubTaskState.leads_refl st
    · rw [htcall, ← hcall] at hd
      cases hd
  have hquiet : call.Quiet := by rw [← hcall]; nofun
  have hoc : outcome st ≠ some .cancelled := by cases st <;> nofun
  cases hout : outcome st with
  | some o =>
    have hterminal : st.terminal = true := by
      revert hout
      cases st <;> first | exact fun _ => rfl | exact nofun
    have ho : o ≠ .cancelled := by
      rintro rfl
      exact hoc hout
    cases handle with
    | zero =>
      have hend : ((t.update s.calls (Call.settleArguments st)).update s.calls
          (fun c => { c with ended := some o })).Inv (some s.calls) :=
        hsettle.update (fun hl => { hl with }) ⟨rfl, id⟩
      refine ⟨_, rfl, hend.leave ?_⟩
      have hq := hquiet.settle st
      rw [update_call, update_call, htcall]
      exact {
        ended := nofun
        dropped := fun hne => absurd (Call.settleArguments_handle.trans hhandle) hne
        joined := by
          dsimp only
          rw [Call.settleArguments_joined, ← hcall]
        status := by
          dsimp only
          rw [Call.settleArguments_told, Call.settleArguments_status, hstatus]
          exact ⟨List.mem_append_right _ (List.mem_singleton_self _), hterminal⟩
        results := by
          dsimp only
          rw [hq.no_results, if_neg fun hand => ho (Option.some.inj hand.1)]
        drops := by
          dsimp only
          rw [hq.no_drops, Call.settleArguments_handle, hhandle, if_neg fun hne => hne rfl]
        cancels := ⟨by dsimp only; rw [hq.no_cancels]; exact Nat.zero_le _, hq.not_cancelled true⟩ }
    | succ n =>
      have hopen : call.Open := by
        rw [← hcall]
        exact ⟨rfl, rfl, Nat.succ_ne_zero n, nofun⟩
      have hclosing := hopen.closing (by rw [hstatus]; exact hterminal) (by rw [← hcall]; exact hterminal)
      rw [hstatus] at hclosing
      have hend : ((t.update s.calls (Call.settleArguments st)).update s.calls (Call.leave o)).Inv (some s.calls) :=
        hsettle.update (·.leave o) ⟨rfl, fun _ => rfl⟩
      refine ⟨_, rfl, hend.leave ?_⟩
      rw [update_call, update_call, htcall]
      refine hclosing.leave ?_ (by rw [if_neg fun hand => ho hand.1])
      rw [Call.settleArguments_joined, ← hcall]
  | none =>
    have hnot : st.terminal = false := by
      revert hout
      cases st <;> first | exact fun _ => rfl | exact nofun
    cases handle with
    | zero => exact absurd (hzero rfl) (by rw [hnot]; nofun)
    | succ n =>
      have hopen : call.Open := by
        rw [← hcall]
        exact ⟨rfl, rfl, Nat.succ_ne_zero n, nofun⟩
      refine hsettle.await htcalls ?_ ?_ htcurr ?_ <;> rw [update_call, htcall]
      · refine ⟨hopen.settle st, ?_, ?_⟩
        · rw [Call.settleArguments_delivered, ← hcall]
          exact hnot
        · rw [Call.settleArguments_event, ← hcall]
      · rw [Call.settleArguments_coro, ← hcall]
      · rw [Call.settleArguments_status, hstatus]
        exact hanswer

/-- The host tells the state of a subtask to the call that waits for it. -/
theorem Inv.notifySubscriber (h : s.Inv none) (hw : w < s.calls) (hjoined : (s.call w).joined = true) :
    ∃ s', s.notifySubscriber w = .ok s' ∧ s'.Inv none := by
  have hstate : (s.sched.coros (s.call w).coro).state = .suspend (.subtask w) := by
    refine (h.ended w hw nofun).resolve_right fun hended => ?_
    rw [hended.joined] at hjoined
    cases hjoined
  obtain ⟨-, -, -, hwait, hentry⟩ := h.waits _ w hstate
  have hevent : (s.call w).event = none := by
    cases hev : (s.call w).event with
    | none => rfl
    | some st =>
      rw [(hwait.event st hev).1] at hjoined
      cases hjoined
  rw [State.notifySubscriber, hentry]
  dsimp only
  rw [update_update]
  have hsame : ∀ u, u ≠ w → ∀ f, (s.update w f).call u = s.call u := fun u hu f => Function.update_of_ne hu _ _
  have hnew : (s.update w (Call.report ∘ Call.receive (s.call w).status)).call w =
      ((s.call w).receive (s.call w).status).report := update_call _
  generalize Call.report ∘ Call.receive (s.call w).status = f at hnew ⊢
  refine ⟨_, rfl, ?_⟩
  constructor
  · exact h.sched.wake (h.sched.spawned (c := (s.call w).coro) (by rw [hstate]; nofun))
  · intro d u hd
    have hd' : (s.sched.coros d).state = .suspend (.subtask u) := Scheduler.wake_state.symm.trans hd
    obtain ⟨hlt, -, hucoro, huwait, huentry⟩ := h.waits d u hd'
    by_cases huw : u = w
    · subst huw
      dsimp only
      rw [hnew]
      refine ⟨hlt, nofun, hucoro, ⟨{ huwait.toOpen with }, nofun, fun st hst => ?_⟩, huentry⟩
      cases hst
      refine ⟨rfl, ?_, SubTaskState.leads_refl _, rfl⟩
      rw [Scheduler.wake_ready, hucoro, decide_eq_true rfl, Bool.true_or]
    · dsimp only
      rw [hsame u huw]
      refine ⟨hlt, nofun, hucoro, ⟨huwait.toOpen, huwait.empty, fun st hst => ?_⟩, huentry⟩
      obtain ⟨hj, hr, hall⟩ := huwait.event st hst
      refine ⟨hj, ?_, hall⟩
      rw [Scheduler.wake_ready, update_sched, hr, Bool.or_true]
  · intro u hu _
    dsimp only
    by_cases huw : u = w
    · subst huw
      rw [hnew]
      exact Or.inl (Scheduler.wake_state.trans hstate)
    · rw [hsame u huw]
      exact (h.ended u hu nofun).imp Scheduler.wake_state.trans id
  · intro u hu
    dsimp only
    by_cases huw : u = w
    · subst huw
      rw [hnew]
      exact { h.ledger u hu with }
    · rw [hsame u huw]
      exact h.ledger u hu
  · intro u hu v hv hud hvd hzero heq
    have hdropped : ∀ x, ((s.update w f).call x).dropped = (s.call x).dropped := fun x => by
      by_cases hx : x = w
      · subst hx; rw [hnew]; rfl
      · rw [hsame x hx]
    have hhandle : ∀ x, ((s.update w f).call x).handle = (s.call x).handle := fun x => by
      by_cases hx : x = w
      · subst hx; rw [hnew]; rfl
      · rw [hsame x hx]
    dsimp only at hud hvd hzero heq
    rw [hdropped] at hud hvd
    rw [hhandle] at hzero heq
    rw [hhandle] at heq
    exact h.distinct u hu v hv hud hvd hzero heq
  · intro l n u hu
    obtain ⟨hst, hall⟩ := h.entries l n u hu
    dsimp only
    by_cases huw : u = w
    · subst huw
      rw [hnew]
      exact ⟨Scheduler.wake_state.trans hst, hall⟩
    · rw [hsame u huw]
      exact ⟨Scheduler.wake_state.trans hst, hall⟩

/-- The host moves a subtask on that was not dropped. -/
theorem Inv.progress (h : s.Inv none) (hw : w < s.calls) (hhandle : (s.call w).handle ≠ 0)
    (hdropped : (s.call w).dropped = false) {st : SubTaskState} (hst : (s.call w).status.leads st = true) :
    (s.update w fun c => { c with status := st, pending := true }).Inv none := by
  have hsame : ∀ u, u ≠ w → ∀ f, (s.update w f).call u = s.call u := fun u hu f => Function.update_of_ne hu _ _
  have hnew : (s.update w fun c => { c with status := st, pending := true }).call w =
      { s.call w with status := st, pending := true } := update_call _
  generalize (fun c : Call => { c with status := st, pending := true }) = f at hnew ⊢
  constructor
  · exact h.sched
  · intro d u hd
    obtain ⟨hlt, -, hucoro, hwait, hentry⟩ := h.waits d u hd
    by_cases huw : u = w
    · subst huw
      rw [hnew]
      refine ⟨hlt, nofun, hucoro, ⟨{ hwait.toOpen with }, hwait.empty, fun st' hst' => ?_⟩, hentry⟩
      obtain ⟨hjoined, hready, hleads, hdelivered⟩ := hwait.event st' hst'
      exact ⟨hjoined, hready, SubTaskState.leads_trans hleads hst, hdelivered⟩
    · rw [hsame u huw]
      exact ⟨hlt, nofun, hucoro, hwait, hentry⟩
  · intro u hu _
    by_cases huw : u = w
    · subst huw
      rw [hnew]
      refine Or.inl ((h.ended u hu nofun).resolve_right fun hended => ?_)
      rw [hended.dropped hhandle] at hdropped
      cases hdropped
    · rw [hsame u huw]
      exact h.ended u hu nofun
  · intro u hu
    by_cases huw : u = w
    · subst huw
      rw [hnew]
      exact (h.ledger u hu).progress hst
    · rw [hsame u huw]
      exact h.ledger u hu
  · intro u hu v hv hud hvd hzero heq
    have hdropped' : ∀ x, ((s.update w f).call x).dropped = (s.call x).dropped := fun x => by
      by_cases hx : x = w
      · subst hx; rw [hnew]
      · rw [hsame x hx]
    have hhandle' : ∀ x, ((s.update w f).call x).handle = (s.call x).handle := fun x => by
      by_cases hx : x = w
      · subst hx; rw [hnew]
      · rw [hsame x hx]
    rw [hdropped'] at hud hvd
    rw [hhandle'] at hzero heq
    rw [hhandle'] at heq
    exact h.distinct u hu v hv hud hvd hzero heq
  · intro l n u hu
    obtain ⟨hstate, hall⟩ := h.entries l n u hu
    by_cases huw : u = w
    · subst huw
      rw [hnew]
      exact ⟨hstate, hall⟩
    · rw [hsame u huw]
      exact ⟨hstate, hall⟩

/-! ## Every run -/

/-- What the coroutine that runs does to itself is noticed by no call. -/
theorem Inv.running (h : s.Inv none) {f : CoroId → Scheduler Waits}
    (hf : ∀ c, s.sched.currCoro = some c → (f c).Inv ∧ ∃ x, (f c).coros = Function.update s.sched.coros c x ∧
      ∀ w, x.state ≠ .suspend (.subtask w)) : (s.running f).Inv none := by
  rw [State.running]
  split
  · rename_i c hcurr
    obtain ⟨hs, x, hx, hnew⟩ := hf c hcurr
    exact h.withSched hs fun w => .update hx (by rw [(h.sched.running c).mpr hcurr]; nofun) (hnew w)
  · exact h

/-- Every event that is allowed is handled without a panic. -/
theorem Inv.exec (h : s.Inv none) {e : Event} (hok : s.allowed e) : ∃ s', s.exec e = .ok s' ∧ s'.Inv none := by
  cases e with
  | spawn lane =>
    have hfresh := h.sched.fresh s.sched.coroId (Nat.le_refl _)
    exact ⟨_, rfl, h.withSched (h.sched.spawnOwned lane .start) fun w =>
      .update (c := s.sched.coroId) rfl (by rw [hfresh.1]; nofun) nofun⟩
  | resume lane reply => exact h.resume hok.1 lane hok.2
  | call handle st reply =>
    obtain ⟨hcurr, hanswer, hzero, hfresh⟩ := hok
    obtain ⟨c, hc⟩ := Option.isSome_iff_exists.mp hcurr
    rw [State.exec, hc]
    exact h.suspendForSubtask hc hanswer hzero hfresh
  | progress w st => exact ⟨_, rfl, h.progress hok.1 hok.2.1 hok.2.2.1 hok.2.2.2.1⟩
  | deliver w => exact h.notifySubscriber hok.2.1 hok.2.2.1
  | cancel c => exact ⟨_, rfl, h.withSched h.sched.cancel fun w => .cancel _ c _⟩
  | shield shielded =>
    refine ⟨_, rfl, h.running fun c hcurr => ⟨h.sched.set rfl rfl rfl, _, rfl, fun w => ?_⟩⟩
    rw [(h.sched.running c).mpr hcurr]
    nofun
  | park =>
    refine ⟨_, rfl, h.running fun c hcurr => ?_⟩
    split
    · refine ⟨h.sched, s.sched.coros c, (Function.update_eq_self _ _).symm, fun w => ?_⟩
      rw [(h.sched.running c).mpr hcurr]
      nofun
    · exact ⟨h.sched.leave hcurr nofun, _, rfl, nofun⟩
  | unpark c =>
    refine ⟨_, rfl, h.withStates (h.sched.wake hok) (fun d w => by rw [Scheduler.wake_state]) ?_⟩
    -- a wake leaves everybody ready who was
    intro d w _ hready
    rw [Scheduler.wake_ready, hready, Bool.or_true]
  | finish failed =>
    refine ⟨_, rfl, h.running fun c hcurr => ?_⟩
    cases failed
    · exact ⟨h.sched.leave hcurr nofun, _, rfl, nofun⟩
    · exact ⟨h.sched.leave hcurr nofun, _, rfl, nofun⟩

theorem Inv.fresh : State.fresh.Inv none where
  sched := Scheduler.Inv.empty
  waits := nofun
  ended := nofun
  ledger := nofun
  distinct := nofun
  entries := nofun

theorem Inv.of_reachable (h : system.Reachable s) : s.Inv none :=
  System.Reachable.invariant (S := system) (I := State.Inv none) (fun _ hs => hs ▸ .fresh)
    (fun _ _ _ hinv hok hrun => by
      obtain ⟨s', hs', hinv'⟩ := hinv.exec hok
      cases hs'.symm.trans hrun
      exact hinv') h

end State

/-! ## One map of subscribers -/

/-- A task has one map for all that waits in it. What waits for a stream, a future or
the wakeup takes out the entry of its own index. -/
inductive SharedEvent where
  | own (e : Event)
  | removed (lane : Lane) (index : Nat)

namespace State

variable (s : State)

def execShared : SharedEvent → Except String State
  | .own e => s.exec e
  | .removed lane index => .ok (s.subscribe lane index none)

/-- The entry that others take out is not that of a call. -/
def Spared : SharedEvent → Prop
  | .own e => s.allowed e
  | .removed lane index => s.subscribers lane index = none

end State

/-- The runs in which nobody else takes out the entry of a call. -/
def shared : System State SharedEvent String where
  init s := s = State.fresh
  allowed := State.Spared
  exec := State.execShared

theorem State.Inv.execShared {s : State} (h : s.Inv none) {e : SharedEvent} (hok : s.Spared e) :
    ∃ s', s.execShared e = .ok s' ∧ s'.Inv none := by
  cases e with
  | own e => exact h.exec hok
  | removed lane index =>
    have hsame : s.subscribe lane index none = s := by
      have hnone : s.subscribers lane index = none := hok
      rw [State.subscribe, ← hnone, Function.update_eq_self, Function.update_eq_self]
    exact ⟨s, congrArg Except.ok hsame, h⟩

theorem State.Inv.of_shared {s : State} (h : shared.Reachable s) : s.Inv none :=
  System.Reachable.invariant (S := shared) (I := State.Inv none) (fun _ hs => hs ▸ .fresh)
    (fun _ _ _ hinv hok hrun => by
      obtain ⟨s', hs', hinv'⟩ := hinv.execShared hok
      cases hs'.symm.trans hrun
      exact hinv') h

/-- While nobody else takes out the entry of a call, no event that the host or a
coroutine may send makes a call panic. -/
theorem never_panics (s : State) (h : shared.Reachable s) (e : SharedEvent) (hok : s.Spared e) :
    ∃ s', s.execShared e = .ok s' := by
  obtain ⟨s', hs', -⟩ := (State.Inv.of_shared h).execShared hok
  exact ⟨s', hs'⟩

/-- A call waits for its subtask, the entry of another index is taken out, the subtask
moves on, and its event finds the subscriber. -/
theorem never_panics_deliver : ∃ s s' : State, s.subscribers 0 1 = some 0 ∧ (s.call 0).pending = true ∧
    s.execShared (.own (.deliver 0)) = .ok s' := by
  have h₀ : shared.Reachable State.fresh := .init _ rfl
  have h₁ := h₀.step _ _ (SharedEvent.own (Event.spawn 0)) trivial rfl
  have h₂ := h₁.step _ _ (SharedEvent.own (Event.resume 0 .Returned)) ⟨rfl, fun c w hc hw => by cases hc; cases hw⟩ rfl
  have h₃ := h₂.step _ _ (SharedEvent.own (Event.call 1 .Starting .Returned)) ⟨rfl, ⟨rfl, rfl⟩, by simp, by decide⟩ rfl
  have h₄ := h₃.step _ _ (SharedEvent.removed 0 2) rfl rfl
  have h₅ := h₄.step _ _ (SharedEvent.own (Event.progress 0 .Started)) ⟨by decide, by decide, rfl, rfl, by decide⟩ rfl
  obtain ⟨s', hs'⟩ := never_panics _ h₅ (SharedEvent.own (Event.deliver 0)) ⟨rfl, by decide, rfl, rfl⟩
  exact ⟨_, s', rfl, rfl, hs'⟩

/-- Every call keeps its protocol, at any moment of any run; one that has not ended
waits for its subtask. -/
theorem calls_keep_protocol (s : State) (h : system.Reachable s) (w : CallId) (hw : w < s.calls) :
    (s.call w).Protocol ∧ ((s.call w).ended = none →
      ∃ c, (s.sched.coros c).state = .suspend (.subtask w)) := by
  have hinv := State.Inv.of_reachable h
  rcases hinv.ended w hw nofun with hstate | hended
  · obtain ⟨-, -, -, hwait, -⟩ := hinv.waits _ w hstate
    exact ⟨hwait.toOpen.protocol (hinv.ledger w hw), fun _ => ⟨_, hstate⟩⟩
  · exact ⟨hended.protocol (hinv.ledger w hw), fun hnone => absurd hnone hended.ended⟩

/-- A subtask starts, the task is cancelled before the coroutine of the call hears of
that, and the callee returns all the same: the arguments were taken, and the result
is dropped. -/
theorem calls_keep_protocol_raced : ∃ s : State,
    (s.call 0).effects = [.settle false, .cancel false, .dropResult, .drop false true] ∧
      (s.call 0).Protocol := by
  have h₀ : system.Reachable State.fresh := .init _ rfl
  have h₁ := h₀.step _ _ (Event.spawn 0) trivial rfl
  have h₂ := h₁.step _ _ (Event.resume 0 .Returned) ⟨rfl, fun c w hc hw => by cases hc; cases hw⟩ rfl
  have h₃ := h₂.step _ _ (Event.call 1 .Starting .Returned) ⟨rfl, ⟨rfl, rfl⟩, nofun, by decide⟩ rfl
  have h₄ := h₃.step _ _ (Event.progress 0 .Started) ⟨by decide, by decide, rfl, rfl, by decide⟩ rfl
  have h₅ := h₄.step _ _ (Event.deliver 0) ⟨rfl, by decide, rfl, rfl⟩ rfl
  have h₆ := h₅.step _ _ (Event.cancel 0) trivial rfl
  have h₇ := h₆.step _ _ (Event.resume 0 .Returned)
    ⟨rfl, fun c w hc hw => by cases hc; cases hw; exact ⟨rfl, rfl⟩⟩ rfl
  exact ⟨_, rfl, (calls_keep_protocol _ h₇ 0 (by decide)).1⟩

end Subtask

end Moonbit

end WitBindgen
