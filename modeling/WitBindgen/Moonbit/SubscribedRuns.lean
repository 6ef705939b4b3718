import WitBindgen.Library.Runs
import WitBindgen.Moonbit.SubscribedOps

/-!
# Runs in which an index is not reused too early

In every state of such a run the set of a task and its subscribers agree. Without that
condition they do not: a read that was cancelled by a closer, and that has not gone on
yet, removes whatever entry its old index has by then.
-/

namespace WitBindgen

namespace Moonbit

namespace Subscription

namespace State

variable {s s' : State} {l : Lane} {h : Index} {e : EndId} {u : SubscriberId}

theorem Inv.fresh : State.fresh.Inv none where
  sched := .empty
  coro _ _ hc := nomatch hc
  waits c u hc := by simp [Sleeps, State.fresh, Scheduler.empty] at hc
  unique c d u v hc := by simp [Sleeps, State.fresh, Scheduler.empty] at hc
  entries l h u hu := by simp [State.fresh] at hu
  busy := nofun
  joined h l hj := by simp [State.fresh] at hj
  table h e he := by simp [State.fresh] at he
  ends e he := absurd he (Nat.not_lt_zero e)
  wakeup l w hw := by simp [State.fresh] at hw
  wakeups l l' w w' hw := by simp [State.fresh] at hw
  latched e he := by simp [State.fresh] at he
  own p hp := by simp [State.fresh] at hp

/-- The running coroutine does something that no subscriber notices. -/
theorem Inv.running (hi : s.Inv none) {f : CoroId → Scheduler Waits}
    (hf : ∀ c, s.sched.currCoro = some c → (f c).Inv ∧ s.sched.coroId ≤ (f c).coroId ∧
      ∀ u, s.sched.Keeps (f c) (.event u)) : (s.running f).Inv none := by
  rw [State.running]
  split
  · rename_i c hc
    exact hi.keeps (hf c hc).1 (hf c hc).2.1 (hf c hc).2.2
  · exact hi

theorem calls_ok {f : CoroId → Except String State} (hok : s.calls f = .ok s') :
    ∃ c, s.sched.currCoro = some c ∧ f c = .ok s' := by
  rw [calls] at hok
  split at hok
  · rename_i c hc
    exact ⟨c, hc, hok⟩
  · cases hok

theorem not_wakeup (hkind : (s.ends e).kind.isRead = true ∨ (s.ends e).kind.isWrite = true) :
    (s.ends e).kind ≠ .wakeup := fun heq => by
  rw [heq] at hkind
  rcases hkind with hk | hk <;> cases hk

/-- What one event keeps, where it registers no index that a coroutine still has to
leave. -/
theorem Inv.exec (hi : s.Inv none) {event : Event} (hallowed : s.allowed event) (hfresh : s.NotReused event)
    (hok : s.exec event = .ok s') : s'.Inv none := by
  have hspawn : ∀ lane u, s.sched.Keeps (s.sched.spawnOwned lane .start) (.event u) := fun lane u => by
    refine .update (c := s.sched.coroId) (x := ⟨lane, .suspend .start, true, false, true⟩) rfl ?_ nofun
    rw [(hi.sched.fresh _ (Nat.le_refl _)).1]
    nofun
  -- the running coroutine waits for no event
  have hrunning : ∀ c u, s.sched.currCoro = some c → (s.sched.coros c).state ≠ .suspend (.event u) := fun c u hc => by
    rw [(hi.sched.running c).mpr hc]
    nofun
  cases event with
  | beginTask lane =>
    cases hok
    -- no waitable had a subscriber in the lane
    have hset : (s.setTask lane fun _ => ⟨true, s.sched.coroId, none⟩).Inv none := by
      refine hi.setTask nofun fun h u hu ha => ?_
      obtain ⟨w, hw, -⟩ := ha
      rw [hallowed.2] at hw
      cases hw
    exact hset.keeps (hi.sched.spawnOwned lane .start) (Nat.le_succ _) (hspawn lane)
  | spawn lane =>
    cases hok
    exact hi.keeps (hi.sched.spawnOwned lane .start) (Nat.le_succ _) (hspawn lane)
  | resume lane reply => exact hi.resume hallowed hok
  | lift kind h =>
    cases hok
    exact hi.newEnd _ _ hallowed.1
  | operate e immediate reply =>
    obtain ⟨c, hc, hrun⟩ := calls_ok hok
    -- an operation that blocks registers under an index that is free
    refine hi.operate hc hallowed.1 (not_wakeup hallowed.2) (fun hn => ?_) hrun
    subst hn
    exact hfresh c hc
  | close e reply => exact hi.close hallowed.1 hallowed.2 hok
  | closeSync e =>
    cases hok
    exact hi.closeSync hallowed.1 (not_wakeup hallowed.2)
  | call h =>
    obtain ⟨c, hc, hrun⟩ := calls_ok hok
    exact hi.suspendForSubtask hc hallowed (hfresh c hc) hrun
  | deliver lane h event =>
    obtain ⟨s1, hs1, hinv⟩ := hi.notifySubscriber hallowed event
    rw [State.exec, hs1] at hok
    cases hok
    exact hinv
  | arm lane h => exact hi.armTaskWakeup hallowed.2 hfresh hok
  | cancelWakeup lane =>
    cases hok
    exact (hi.cancelTaskWakeupRead lane).1
  | finishTask lane => exact hi.finishWaitableset hok
  | cancel c =>
    cases hok
    exact hi.keeps hi.sched.cancel (Nat.le_of_eq Scheduler.cancel_coroId.symm) fun u => .cancel ..
  | shield shielded =>
    cases hok
    refine hi.running fun c hc => ⟨hi.sched.set rfl rfl rfl, Nat.le_refl _, fun u => ?_⟩
    exact .update rfl (hrunning c u hc) (hrunning c u hc)
  | park =>
    cases hok
    refine hi.running fun c hc => ?_
    split
    · exact ⟨hi.sched, Nat.le_refl _, fun u => .update (Function.update_eq_self c _).symm (hrunning c u hc)
        (hrunning c u hc)⟩
    · exact ⟨hi.sched.leave hc nofun, Nat.le_refl _, fun u => .update rfl (hrunning c u hc) nofun⟩
  | unpark c =>
    cases hok
    exact hi.wake hallowed
  | finish failed =>
    cases hok
    refine hi.running fun c hc => ⟨hi.sched.leave hc ?_, Nat.le_refl _, fun u => .update rfl (hrunning c u hc) ?_⟩
    all_goals
      intro heq
      split at heq <;> cases heq

/-- The invariant says what `notify_subscriber` relies on. -/
theorem Inv.subscribed (hi : s.Inv none) : s.Subscribed where
  joined h l := by
    refine ⟨hi.joined h l, fun ⟨u, hu, hn⟩ => (hi.entries l h u hu).inside hn⟩
  owner l h u hu := by
    have he := hi.entries l h u hu
    refine ⟨he.lane, he.index, he.table, ?_⟩
    rcases he.owner with ⟨c, hc⟩ | ha | hou
    · exact Or.inl ⟨c, hc, (hi.waits c u hc).lane.trans he.lane⟩
    · exact Or.inr ha
    · cases hou
  own := hi.own
  finished l hblock hidle h := by
    cases hu : s.subscribers l h with
    | none => rfl
    | some u =>
      have he := hi.entries l h u hu
      rcases he.owner with ⟨c, hc⟩ | ⟨w, hw, hr, -⟩ | hou
      · -- a coroutine that waits raises the count
        have hlt : c < s.sched.coroId := hi.sched.spawned (by
          rw [show (s.sched.coros c).state = .suspend (.event u) from hc]
          nofun)
        have hnot := List.countP_eq_zero.mp hblock c (List.mem_range.mpr hlt)
        rw [show (s.sched.coros c).state = .suspend (.event u) from hc, (hi.waits c u hc).lane, he.lane] at hnot
        simp at hnot
      · rw [hidle w hw] at hr
        cases hr
      · cases hou

end State

theorem State.Inv.of_reachable {s : State} (h : orderly.Reachable s) : s.Inv none :=
  System.Reachable.invariant (S := orderly) (I := State.Inv none) (fun _ hs => hs ▸ .fresh)
    (fun _ _ _ hinv hok hrun => hinv.exec hok.1 hok.2 hrun) h

/-- As long as no index is registered again before the coroutine that a closer woke has
gone on, the set of a task and its subscribers agree, and an event of the host finds its
subscriber. -/
theorem subscribed_unless_reused (s : State) (h : orderly.Reachable s) :
    s.Subscribed ∧ ∀ l i event, s.joined i = some l → ∃ s', s.notifySubscriber l i event = .ok s' := by
  have hinv := State.Inv.of_reachable h
  refine ⟨hinv.subscribed, fun l i event hj => ?_⟩
  obtain ⟨s', hs', -⟩ := hinv.notifySubscriber hj event
  exact ⟨s', hs'⟩

/-- A read is closed while it waits, and its index is read again once it has gone on. -/
theorem subscribed_unless_reused_in_turn : ∃ s : State, s.joined 5 = some 0 ∧ s.removals = [(0, 0)] ∧
    (s.Subscribed ∧ ∀ l i event, s.joined i = some l → ∃ s', s.notifySubscriber l i event = .ok s') := by
  have h₀ : orderly.Reachable State.fresh := .init _ rfl
  have h₁ := h₀.step _ _ (Event.beginTask 0) ⟨⟨rfl, rfl⟩, trivial⟩ rfl
  have h₂ := h₁.step _ _ (Event.spawn 0) ⟨trivial, trivial⟩ rfl
  have h₃ := h₂.step _ _ (Event.lift .streamRead 5) ⟨⟨rfl, Or.inl rfl⟩, trivial⟩ rfl
  have h₄ := h₃.step _ _ (Event.resume 0 (.copy .Cancelled)) ⟨rfl, trivial⟩ rfl
  have h₅ := h₄.step _ _ (Event.operate 0 none (.copy .Cancelled))
    ⟨⟨by decide, Or.inl rfl⟩, fun _ _ d u hd => by rcases d with _ | _ | d <;> cases hd⟩ rfl
  have h₆ := h₅.step _ _ (Event.resume 0 (.copy .Cancelled)) ⟨rfl, trivial⟩ rfl
  have h₇ := h₆.step _ _ (Event.close 0 (.copy .Cancelled)) ⟨⟨by decide, rfl⟩, trivial⟩ rfl
  have h₈ := h₇.step _ _ (Event.lift .streamRead 5) ⟨⟨rfl, Or.inl rfl⟩, trivial⟩ rfl
  have h₉ := h₈.step _ _ Event.park ⟨trivial, trivial⟩ rfl
  have h₁₀ := h₉.step _ _ (Event.resume 0 (.copy .Cancelled)) ⟨rfl, trivial⟩ rfl
  have h₁₁ := h₁₀.step _ _ (Event.operate 1 none (.copy .Cancelled))
    ⟨⟨by decide, Or.inl rfl⟩, fun _ _ d u hd => by rcases d with _ | _ | d <;> cases hd⟩ rfl
  exact ⟨_, rfl, rfl, subscribed_unless_reused _ h₁₁⟩

/-- The closer reads the index again before the read that it cancelled has gone on. That
read then removes the entry of the new one: its event will find no subscriber. -/
theorem foreign_entry_removed : ∃ s : State, system.Reachable s ∧ s.joined 5 = some 0 ∧
    s.removals = [(0, 0), (0, 1)] ∧ s.notifySubscriber 0 5 (.copy .Completed) = .error "guard failed" ∧
    ¬s.Subscribed := by
  have h₀ : system.Reachable State.fresh := .init _ rfl
  have h₁ := h₀.step _ _ (Event.beginTask 0) ⟨rfl, rfl⟩ rfl
  have h₂ := h₁.step _ _ (Event.spawn 0) trivial rfl
  have h₃ := h₂.step _ _ (Event.lift .streamRead 5) ⟨rfl, Or.inl rfl⟩ rfl
  have h₄ := h₃.step _ _ (Event.resume 0 (.copy .Cancelled)) rfl rfl
  have h₅ := h₄.step _ _ (Event.operate 0 none (.copy .Cancelled)) ⟨by decide, Or.inl rfl⟩ rfl
  have h₆ := h₅.step _ _ (Event.resume 0 (.copy .Cancelled)) rfl rfl
  have h₇ := h₆.step _ _ (Event.close 0 (.copy .Cancelled)) ⟨by decide, rfl⟩ rfl
  have h₈ := h₇.step _ _ (Event.lift .streamRead 5) ⟨rfl, Or.inl rfl⟩ rfl
  have h₉ := h₈.step _ _ (Event.operate 1 none (.copy .Cancelled)) ⟨by decide, Or.inl rfl⟩ rfl
  have h₁₀ := h₉.step _ _ (Event.resume 0 (.copy .Cancelled)) rfl rfl
  exact ⟨_, h₁₀, rfl, rfl, rfl, fun hs => absurd (hs.own (0, 1) (by decide)) (by decide)⟩

end Subscription

end Moonbit

end WitBindgen
