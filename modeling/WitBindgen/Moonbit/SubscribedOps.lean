import WitBindgen.Moonbit.Subscribed

/-!
# The operations keep the subscriptions

Each operation either stays with the entry that it has, or removes it and goes on
without one. A closer that finds a read removes the entry in its place, and the flags of
the end tell the read so.
-/

namespace WitBindgen

namespace Moonbit

namespace Subscription

namespace State

variable {s s' : State} {o : Option SubscriberId} {l : Lane} {h : Index} {e : EndId} {u : SubscriberId}

/-- Nobody has an entry of the end. -/
def Unlisted (s : State) (e : EndId) : Prop := ∀ l h u, s.subscribers l h = some u → (s.subscriber u).of ≠ e

/-- What the removal of an entry leaves alone. -/
structure Frame (s s' : State) : Prop where
  ends : s'.ends = s.ends
  endCount : s'.endCount = s.endCount
  tasks : s'.tasks = s.tasks
  sleeps : ∀ c u, s'.Sleeps c u ↔ s.Sleeps c u
  of : ∀ u, (s'.subscriber u).of = (s.subscriber u).of

theorem Frame.free (hf : s.Frame s') (hfree : s.Free e) : s'.Free e := fun c u hc => by
  rw [hf.of]
  exact hfree c u ((hf.sleeps c u).mp hc)

theorem remove_cases (l : Lane) (h : Index) (e : EndId) :
    ∃ subscribers' removals', s.remove l h e = { s with subscribers := subscribers', removals := removals' } := by
  rw [State.remove]
  split
  · exact ⟨_, _, rfl⟩
  · exact ⟨s.subscribers, s.removals, rfl⟩

theorem remove_frame (l : Lane) (h : Index) (e : EndId) : s.Frame (s.remove l h e) := by
  obtain ⟨subscribers', removals', heq⟩ := s.remove_cases l h e
  rw [heq]
  exact ⟨rfl, rfl, rfl, fun _ _ => Iff.rfl, fun _ => rfl⟩

theorem remove_joined (l : Lane) (h : Index) (e : EndId) : (s.remove l h e).joined = s.joined := by
  obtain ⟨subscribers', removals', heq⟩ := s.remove_cases l h e
  rw [heq]

theorem waitableJoin_none (hj : s.joined h = none) : s.waitableJoin h none = s := by
  rw [waitableJoin, ← hj, Function.update_eq_self]

theorem wakeAll_sleeps : ∀ (cs : List CoroId) {s : State} (c : CoroId) (u : SubscriberId),
    (s.wakeAll cs).Sleeps c u ↔ s.Sleeps c u
  | [], _, _, _ => Iff.rfl
  | d :: cs, s, c, u => by
    have hrest := wakeAll_sleeps cs (s := { s with sched := s.sched.wake d }) c u
    refine hrest.trans ?_
    rw [Sleeps, Sleeps, Scheduler.wake_state]

/-! ## Ends without an entry -/

theorem Inv.unlisted_of_free (hi : s.Inv none) (hfree : s.Free e) (hkind : (s.ends e).kind ≠ .wakeup) :
    s.Unlisted e := fun _ _ _ hu hof => nomatch hi.entry_free hfree hkind hu hof

/-- The entry of a read that was cancelled is gone. -/
theorem Inv.unlisted_of_discarding (hi : s.Inv none) (hdisc : (s.ends e).discarding = true)
    (hkind : (s.ends e).kind ≠ .wakeup) : s.Unlisted e := by
  intro l h u hu hof
  have he := hi.entries l h u hu
  rcases he.owner with ⟨c, hc⟩ | ⟨w, hw, -, hwe⟩ | hou
  · rcases (hi.waits c u hc).place with ⟨-, hno⟩ | ⟨hnone, -⟩
    · rw [hof, hdisc] at hno
      cases hno
    · rw [he.lane, he.index, hu] at hnone
      cases hnone
  · refine hkind ?_
    rw [← hof, ← hwe]
    exact (hi.wakeup l w hw).2.1
  · cases hou

/-- An entry under the index of an end is all that the end can have. -/
theorem Inv.unlisted_of_index (hi : s.Inv o) (hnone : ∀ l, s.subscribers l (s.ends e).index = none) : s.Unlisted e := by
  intro l h u hu hof
  have hidx := (hi.table h _ (hi.entries l h u hu).table).2.1
  rw [hof] at hidx
  rw [← hidx, hnone l] at hu
  cases hu

theorem Inv.settled (hi : s.Inv (some u)) (hnone : s.Unlisted (s.subscriber u).of) : s.Inv none :=
  hi.settle fun l h hu => hnone l h u hu rfl

theorem Inv.finishRead (hi : s.Inv o) (hfree : s.Free e) : (s.finishRead e).Inv o := by
  rw [State.finishRead]
  exact hi.setEnd (fun _ => rfl) (fun _ => rfl) (fun _ => rfl) nofun fun c u hc hof => absurd hof (hfree c u hc)

theorem Inv.notWakeup (hi : s.Inv o) (hkind : (s.ends e).kind ≠ .wakeup) {w : TaskWakeup}
    (hw : (s.tasks l).wakeup = some w) : w.reader ≠ e := by
  rintro rfl
  exact hkind (hi.wakeup l w hw).2.1

theorem Inv.dropOpen (hi : s.Inv o) (hlt : e < s.endCount) (hkind : (s.ends e).kind ≠ .wakeup)
    (hnone : s.Unlisted e) : (s.dropOpen e).Inv o := by
  rw [State.dropOpen]
  split
  · exact hi
  · rename_i hopen
    exact hi.dropEnd hlt (Bool.not_eq_true _ ▸ hopen) hnone fun l w hw => hi.notWakeup hkind hw

theorem dropOpen_free (hfree : s.Free e) : (s.dropOpen e).Free e := by
  rw [State.dropOpen]
  split <;> exact hfree

/-- An operation that got its event, and has no entry any more. -/
theorem Inv.completed (hi : s.Inv none) (hlt : e < s.endCount) (hkind : (s.ends e).kind ≠ .wakeup)
    (hfree : s.Free e) {event : Events} (hok : s.completed e event = .ok s') : s'.Inv none := by
  have hfin := hi.finishRead hfree
  rw [State.completed] at hok
  split at hok
  · rename_i hdisc
    rw [waitForReadCleanup, hi.latched e hdisc] at hok
    cases hok
    exact hfin
  · cases hok
    split
    · have hk : ((s.finishRead e).ends e).kind ≠ .wakeup := by
        simp only [State.finishRead, State.setEnd, Function.update_self]
        exact hkind
      exact hfin.dropOpen hlt hk (hfin.unlisted_of_free hfree hk)
    · exact hfin

/-! ## Cancelling -/

theorem cancelWaitableEvent_ok {reply : Events} (hok : s.cancelWaitableEvent l e reply = .ok s') :
    ∃ u event, s.subscribers l (s.ends e).index = some u ∧
      s' = (((s.setSubscriber u fun x => { x with event := some event }).waitableJoin (s.ends e).index none).wakeAll
        (s.subscriber u).coro).remove l (s.ends e).index e := by
  rw [cancelWaitableEvent] at hok
  dsimp only at hok
  split at hok
  · split at hok
    · rename_i u hu
      cases hok
      exact ⟨u, _, hu, rfl⟩
    · cases hok
  · cases hok

/-- The entry of an open end is removed by whoever cancels it; a read that waits for it
is told. -/
theorem Inv.cancelWaitableEvent (hi : s.Inv o) (hlt : e < s.endCount) (hopen : (s.ends e).closed = false)
    (hread : s.Free e ∨ (s.ends e).kind.isRead = true) {reply : Events}
    (hok : s.cancelWaitableEvent l e reply = .ok s') : s'.Inv o ∧ s.Frame s' ∧ s'.Unlisted e := by
  obtain ⟨u, event, hu, rfl⟩ := cancelWaitableEvent_ok hok
  have hof := hi.entry_of hlt hopen hu
  let f : Subscriber → Subscriber := fun x => { x with event := some event }
  let s1 := (s.setSubscriber u f).waitableJoin (s.ends e).index none
  have hsig : s1.Inv o := hi.signal (f := f) ⟨fun _ => rfl, fun _ => rfl, fun _ => rfl⟩ nofun (hi.coro u) hu
  have hwoken : (s1.wakeAll (s.subscriber u).coro).Inv o := hsig.wakeAll (hi.coro u)
  have hsame : ∀ v, ((s.setSubscriber u f).subscriber v).of = (s.subscriber v).of := fun v =>
    setSubscriber_keeps (s := s) (u := u) (f := f) Subscriber.of (fun _ => rfl) v
  have hrem := hwoken.remove (l := l) (h := (s.ends e).index) (e := e) hu ((hsame u).trans hof) fun c hc => by
    refine ⟨?_, ?_⟩
    · simp only [State.wakeAll, s1, waitableJoin, State.setSubscriber, Function.update_self]
      nofun
    · rcases hread with hfree | hread
      · exact absurd hof (hfree c u ((wakeAll_sleeps _ c u).mp hc))
      · exact hread
  have hfr := (s1.wakeAll (s.subscriber u).coro).remove_frame l (s.ends e).index e
  have hout : (s1.wakeAll (s.subscriber u).coro).joined (s.ends e).index = none := by
    simp only [State.wakeAll, s1, waitableJoin, Function.update_self]
  rw [waitableJoin_none (by rw [remove_joined]; exact hout)] at hrem
  have hframe : s.Frame ((s1.wakeAll (s.subscriber u).coro).remove l (s.ends e).index e) :=
    ⟨hfr.ends, hfr.endCount, hfr.tasks, fun c v => (hfr.sleeps c v).trans (wakeAll_sleeps _ c v),
      fun v => (hfr.of v).trans (hsame v)⟩
  refine ⟨hrem.1, hframe, hrem.1.unlisted_of_index fun l' => ?_⟩
  rw [hframe.ends]
  cases hv : ((s1.wakeAll (s.subscriber u).coro).remove l (s.ends e).index e).subscribers l' (s.ends e).index with
  | none => rfl
  | some v => exact absurd rfl (hrem.2 l' _ v hv).2

/-- The flag of a read is nothing that cancelling its event looks at. -/
theorem setEnd_cancelWaitableEvent {f : End → End} (hindex : ∀ x, (f x).index = x.index) {reply : Events}
    (hok : (s.setEnd e f).cancelWaitableEvent l e reply = .ok s') :
    ∃ s1, s.cancelWaitableEvent l e reply = .ok s1 ∧ s' = s1.setEnd e f := by
  have hidx : ((s.setEnd e f).ends e).index = (s.ends e).index := by
    simp only [State.setEnd, Function.update_self, hindex]
  rw [State.cancelWaitableEvent] at hok ⊢
  dsimp only at hok ⊢
  rw [hidx] at hok
  split at hok
  · rename_i halive
    rw [if_pos (by exact halive)]
    split at hok
    · rename_i u hu
      have hu' : s.subscribers l (s.ends e).index = some u := hu
      rw [hu']
      cases hok
      refine ⟨_, rfl, ?_⟩
      simp only [State.remove]
      have hat : ((((s.waitableJoin (s.ends e).index none).setSubscriber u fun x =>
        { x with event := some ((s.subscriber u).event.getD reply) }).wakeAll (s.subscriber u).coro).subscribers l
          (s.ends e).index) = some u := hu'
      have hat' : (((((s.setEnd e f).waitableJoin (s.ends e).index none).setSubscriber u fun x =>
        { x with event := some (((s.setEnd e f).subscriber u).event.getD reply) }).wakeAll
          ((s.setEnd e f).subscriber u).coro).subscribers l (s.ends e).index) = some u := hu'
      rw [hat, hat']
      rfl
    · cases hok
  · cases hok

/-- A read in flight is cancelled: it has no entry any more, and its flags say so. -/
theorem Inv.cancelActiveRead (hi : s.Inv o) (hlt : e < s.endCount) (hopen : (s.ends e).closed = false)
    (hread : (s.ends e).kind.isRead = true) (hbusy : (s.ends e).busy = true)
    (hdisc : (s.ends e).discarding = false) {reply : Events} (hok : s.cancelActiveRead e reply = .ok s') :
    s'.Inv o ∧ s'.Unlisted e ∧ s'.endCount = s.endCount ∧ (s'.ends e).kind = (s.ends e).kind ∧
      (s'.ends e).closed = false ∧ (s.Free e → s'.Free e) ∧ ∀ u, (s'.subscriber u).of = (s.subscriber u).of := by
  rw [State.cancelActiveRead, hbusy, hdisc] at hok
  simp only [Bool.not_true, Bool.false_eq_true, if_false] at hok
  let f : End → End := fun x => { x with discarding := true }
  cases hc : (s.setEnd e f).cancelWaitableEvent ((s.setEnd e f).ends e).task e reply with
  | error m =>
    rw [hc] at hok
    cases hok
  | ok s2 =>
    rw [hc] at hok
    obtain ⟨s1, hs1, rfl⟩ := setEnd_cancelWaitableEvent (f := f) (fun _ => rfl) hc
    obtain ⟨h1, hframe, hnone⟩ := hi.cancelWaitableEvent hlt hopen (Or.inr hread) hs1
    let g : End → End := fun x => { x with discarding := true, cleanupDone := true }
    -- both flags are set when the closer goes on
    have hboth : s' = s1.setEnd e g := by
      cases hok
      simp only [State.setEnd, Function.update_self, Function.update_idem]
      rfl
    rw [hboth]
    have hself : (s1.setEnd e g).ends e = g (s.ends e) := by
      simp only [State.setEnd, Function.update_self, hframe.ends]
    refine ⟨h1.setEnd (fun _ => rfl) (fun _ => rfl) (fun _ => rfl) (fun _ => rfl) fun c v hcv hof => ?_,
      hnone, hframe.endCount, by rw [hself], by rw [hself]; exact hopen,
      fun hfree => hframe.free hfree, hframe.of⟩
    refine ⟨?_, fun hv => hnone _ _ v hv hof⟩
    simp only [g, hframe.ends]
    exact hbusy

theorem Inv.close (hi : s.Inv none) (hlt : e < s.endCount) (hread : (s.ends e).kind.isRead = true)
    {reply : Events} (hok : s.close e reply = .ok s') : s'.Inv none := by
  have hkind : (s.ends e).kind ≠ .wakeup := fun heq => by
    rw [heq] at hread
    cases hread
  rw [State.close] at hok
  split at hok
  · cases hok
    exact hi
  · rename_i hopen
    have hopen := Bool.not_eq_true _ ▸ hopen
    split at hok
    · rename_i hbusy
      cases hdisc : (s.ends e).discarding with
      | true =>
        rw [State.cancelActiveRead, hbusy, hdisc, waitForReadCleanup, hi.latched e hdisc] at hok
        cases hok
        exact hi.dropEnd hlt hopen (hi.unlisted_of_discarding hdisc hkind) fun l w hw => hi.notWakeup hkind hw
      | false =>
        cases hc : s.cancelActiveRead e reply with
        | error m =>
          rw [hc] at hok
          cases hok
        | ok s1 =>
          rw [hc] at hok
          cases hok
          obtain ⟨h1, hnone, hcount, hk, hop, -⟩ := hi.cancelActiveRead hlt hopen hread hbusy hdisc hc
          exact h1.dropEnd (hcount ▸ hlt) hop hnone fun l w hw => h1.notWakeup (hk.trans_ne hkind) hw
    · rename_i hbusy
      cases hok
      exact hi.dropEnd hlt hopen (hi.unlisted_of_free (hi.free (Bool.not_eq_true _ ▸ hbusy)) hkind)
        fun l w hw => hi.notWakeup hkind hw

theorem Inv.closeSync (hi : s.Inv none) (hlt : e < s.endCount) (hkind : (s.ends e).kind ≠ .wakeup) :
    (s.closeSync e).Inv none := by
  rw [State.closeSync]
  split
  · exact hi
  · rename_i hidle
    simp only [Bool.or_eq_true, not_or, Bool.not_eq_true] at hidle
    exact hi.dropEnd hlt hidle.1 (hi.unlisted_of_free (hi.free hidle.2) hkind) fun l w hw => hi.notWakeup hkind hw

/-- An operation that waited, or was about to, and was interrupted. -/
theorem Inv.raised (hi : s.Inv (some u)) (he : (s.subscriber u).of = e) (hopen : (s.ends e).closed = false)
    (hbusy : (s.ends e).busy = true) (hdisc : (s.ends e).discarding = false) {reply : Events}
    (hok : s.raised l e reply = .ok s') : s'.Inv none := by
  have hb := hi.busy u rfl
  have hlt : e < s.endCount := he ▸ hb.of_lt
  have hkind : (s.ends e).kind ≠ .wakeup := he ▸ hb.kind
  have hfree : s.Free e := he ▸ hb.free
  rw [State.raised] at hok
  split at hok
  · rename_i hread
    rw [hdisc] at hok
    simp only [Bool.false_eq_true, if_false] at hok
    cases hc : s.cancelActiveRead e reply with
    | error m =>
      rw [hc] at hok
      cases hok
    | ok s1 =>
      rw [hc] at hok
      cases hok
      obtain ⟨h1, hnone, hcount, hk, -, hfr, hof⟩ := hi.cancelActiveRead hlt hopen hread hbusy hdisc hc
      have hset : s1.Inv none := h1.settled (by rw [hof, he]; exact hnone)
      exact (hset.dropOpen (hcount ▸ hlt) (hk.trans_ne hkind) hnone).finishRead (dropOpen_free (hfr hfree))
  · cases hc : s.cancelWaitableEvent l e reply with
    | error m =>
      rw [hc] at hok
      cases hok
    | ok s1 =>
      rw [hc] at hok
      cases hok
      obtain ⟨h1, hframe, hnone⟩ := hi.cancelWaitableEvent hlt hopen (Or.inl hfree) hc
      have hset : s1.Inv none := h1.settled (by rw [hframe.of, he]; exact hnone)
      refine (hset.dropOpen (hframe.endCount ▸ hlt) ?_ hnone).finishRead (dropOpen_free (hframe.free hfree))
      rw [hframe.ends]
      exact hkind

/-! ## Waiting -/

/-- What a coroutine may start to wait on: an open end that is taken, and that nobody
else waits on. -/
structure Ready (s : State) (c : CoroId) (e : EndId) : Prop where
  curr : s.sched.currCoro = some c
  lt : e < s.endCount
  opened : (s.ends e).closed = false
  busy : (s.ends e).busy = true
  calm : (s.ends e).discarding = false
  kind : (s.ends e).kind ≠ .wakeup
  free : s.Free e
  heard : s.Heard (s.sched.coros c).lane (s.ends e).index

theorem Ready.unlisted {c : CoroId} (hr : s.Ready c e) (hi : s.Inv none) :
    ∀ l, s.subscribers l (s.ends e).index = none := by
  intro l
  cases hu : s.subscribers l (s.ends e).index with
  | none => rfl
  | some v => exact absurd (hi.entry_of hr.lt hr.opened hu) (hi.unlisted_of_free hr.free hr.kind l _ v hu)

/-- A new subscriber of such an end has its entry. -/
theorem Ready.subscribed {c : CoroId} (hr : s.Ready c e) (hi : s.Inv none) (cs : List CoroId)
    (hcs : ∀ d ∈ cs, d < s.sched.coroId) :
    ((({ s with
      subscriber := Function.update s.subscriber s.subs ⟨none, cs, (s.sched.coros c).lane, (s.ends e).index, e⟩
      subs := s.subs + 1 } : State).subscribe (s.sched.coros c).lane (s.ends e).index (some s.subs)).waitableJoin
        (s.ends e).index (some (s.sched.coros c).lane)).Inv (some s.subs) := by
  let x : Subscriber := ⟨none, cs, (s.sched.coros c).lane, (s.ends e).index, e⟩
  let s1 : State := { s with subscriber := Function.update s.subscriber s.subs x, subs := s.subs + 1 }
  have hself : s1.subscriber s.subs = x := by simp only [s1, Function.update_self]
  have hother : ∀ d v, s.Sleeps d v → s1.subscriber v = s.subscriber v := fun d v hd => by
    simp only [s1, Function.update_of_ne (Nat.ne_of_lt (hi.waits d v hd).lt)]
  have hreg : s1.Inv none := hi.register hcs
  have hmono : s1.Inv (some s.subs) := by
    refine hreg.mono ⟨Nat.lt_succ_self _, ?_, fun d v hd => ?_, ?_⟩
    · rw [hself]
      exact hr.lt
    · rw [hself, hother d v hd]
      exact hr.free d v hd
    · rw [hself]
      exact hr.kind
  refine hmono.enter (Nat.lt_succ_self _) (congrArg Subscriber.lane hself) (congrArg Subscriber.index hself) ?_
    (congrArg Subscriber.event hself) (hr.unlisted hi) (fun d v hd hlane hindex => ?_) (Or.inr rfl)
  · rw [hself]
    exact hi.ends e hr.lt hr.opened
  · rw [hother d v hd] at hlane hindex
    have hin := hr.heard d v hd hlane hindex
    rw [hr.unlisted hi] at hin
    cases hin

theorem Inv.waitableEvent (hi : s.Inv none) {c : CoroId} (hr : s.Ready c e) {reply : Events}
    (hok : s.waitableEvent c e reply = .ok s') : s'.Inv none := by
  rw [State.waitableEvent] at hok
  dsimp only at hok
  split at hok
  · rw [hr.unlisted hi] at hok
    have hent := hr.subscribed hi [] nofun
    have hcount : c < s.sched.coroId := hi.sched.spawned fun heq => by
      rw [(hi.sched.running c).mpr hr.curr] at heq
      cases heq
    generalize hs2 : ((({ s with
      subscriber := Function.update s.subscriber s.subs ⟨none, [], (s.sched.coros c).lane, (s.ends e).index, e⟩
      subs := s.subs + 1 } : State).subscribe (s.sched.coros c).lane (s.ends e).index (some s.subs)).waitableJoin
        (s.ends e).index (some (s.sched.coros c).lane)) = s2 at hent
    have hself : s2.subscriber s.subs = ⟨none, [], (s.sched.coros c).lane, (s.ends e).index, e⟩ := by
      rw [← hs2]
      exact Function.update_self ..
    have hends : s2.ends = s.ends := by rw [← hs2]; rfl
    have hsched : s2.sched = s.sched := by rw [← hs2]; rfl
    have hat : s2.subscribers (s.sched.coros c).lane (s.ends e).index = some s.subs := by
      rw [← hs2]
      simp only [waitableJoin, subscribe, Function.update_self]
    dsimp only at hok
    split at hok
    · cases hok
    · have hok' : (if (s.sched.coros c).interrupted = true then s2.raised (s.sched.coros c).lane e reply
          else .ok { s2.setSubscriber s.subs fun x => { x with coro := x.coro ++ [c] } with
            sched := s2.sched.suspend c (.event s.subs) }) = .ok s' := by
        rw [← hs2]
        exact hok
      split at hok'
      · refine hent.raised (congrArg Subscriber.of hself) ?_ ?_ ?_ hok' <;> rw [hends]
        · exact hr.opened
        · exact hr.busy
        · exact hr.calm
      · cases hok'
        let f : Subscriber → Subscriber := fun x => { x with coro := x.coro ++ [c] }
        have hcoro : (s2.setSubscriber s.subs f).Inv (some s.subs) := by
          refine hent.setSubscriber (f := f) ⟨fun _ => rfl, fun _ => rfl, fun _ => rfl⟩ (Or.inl rfl) ?_
          intro d hd
          simp only [f, hself, List.nil_append, List.mem_singleton] at hd
          rw [hd, hsched]
          exact hcount
        have hnew : (s2.setSubscriber s.subs f).subscriber s.subs =
            ⟨none, [c], (s.sched.coros c).lane, (s.ends e).index, e⟩ := by
          simp only [State.setSubscriber, Function.update_self, f, hself, List.nil_append]
        refine hcoro.sleep (c := c) ?_ ?_ ?_ ?_ ?_ ?_ <;> try rw [hnew]
        · exact (congrArg Scheduler.currCoro hsched).trans hr.curr
        · exact congrArg (fun x => (x e).index) hends
        · exact (congrArg (fun x => (x e).busy) hends).trans hr.busy
        · exact congrArg (fun x => (x.coros c).lane) hsched
        · exact hat
        · exact (congrArg (fun x => (x e).discarding) hends).trans hr.calm
  · cases hok

theorem Inv.operate (hi : s.Inv none) {c : CoroId} (hcurr : s.sched.currCoro = some c) (hlt : e < s.endCount)
    (hkind : (s.ends e).kind ≠ .wakeup) {immediate : Option Events} {reply : Events}
    (hheard : immediate = none → s.Heard (s.sched.coros c).lane (s.ends e).index)
    (hok : s.operate c e immediate reply = .ok s') : s'.Inv none := by
  rw [State.operate] at hok
  split at hok
  · cases hok
    exact hi
  · rename_i hidle
    simp only [Bool.or_eq_true, not_or, Bool.not_eq_true] at hidle
    let f : End → End := fun x => { x with
      busy := true
      task := (s.sched.coros c).lane
      discarding := false
      cleanupDone := false }
    have hfree : s.Free e := hi.free hidle.2
    have hset : (s.setEnd e f).Inv none := hi.setEnd (fun _ => rfl) (fun _ => rfl) (fun _ => rfl) nofun
      fun d u hd hof => absurd hof (hfree d u hd)
    have hself : (s.setEnd e f).ends e = f (s.ends e) := by simp only [State.setEnd, Function.update_self]
    have hk : ((s.setEnd e f).ends e).kind ≠ .wakeup := (congrArg End.kind hself).trans_ne hkind
    dsimp only at hok
    split at hok
    · rename_i event
      split at hok
      · split at hok
        · rename_i u hu
          refine absurd (hset.entry_of (e := e) hlt ?_ hu) (hset.unlisted_of_free hfree hk _ _ u hu)
          exact (congrArg End.closed hself).trans hidle.1
        · exact hset.completed hlt hk hfree hok
      · cases hok
    · exact hset.waitableEvent ⟨hcurr, hlt, (congrArg End.closed hself).trans hidle.1, congrArg End.busy hself,
        congrArg End.discarding hself, hk, hfree, by
          rw [hself]
          exact hheard rfl⟩ hok

/-! ## Subtasks -/

/-- A handle whose entry, if it has one, is that of the running operation is detached. -/
theorem Inv.detach (hi : s.Inv (some u)) (he : (s.subscriber u).of = e) (hl : (s.subscriber u).lane = l)
    (hopen : (s.ends e).closed = false) :
    (s.detachWaitable l e).Inv none ∧ (s.detachWaitable l e).Unlisted e ∧ s.Frame (s.detachWaitable l e) := by
  have hb := hi.busy u rfl
  have hlt : e < s.endCount := he ▸ hb.of_lt
  have hkind : (s.ends e).kind ≠ .wakeup := he ▸ hb.kind
  have hfree : s.Free e := he ▸ hb.free
  have hmine : ∀ l' v, s.subscribers l' (s.ends e).index = some v → v = u := fun l' v hv =>
    (Option.some.inj (hi.entry_free hfree hkind hv (hi.entry_of hlt hopen hv))).symm
  rw [detachWaitable]
  split
  · rename_i v hv
    obtain rfl := hmine l v hv
    let f : Subscriber → Subscriber := fun x => { x with coro := [] }
    have hset : (s.setSubscriber v f).Inv (some v) :=
      hi.setSubscriber (f := f) ⟨fun _ => rfl, fun _ => rfl, fun _ => rfl⟩ (Or.inl rfl) nofun
    have hof : ∀ w, ((s.setSubscriber v f).subscriber w).of = (s.subscriber w).of := fun w =>
      setSubscriber_keeps (s := s) (u := v) (f := f) Subscriber.of (fun _ => rfl) w
    obtain ⟨hrem, hless⟩ := hset.remove (l := l) (h := (s.ends e).index) (e := e) hv ((hof v).trans he)
      fun c hc => absurd he (hfree c v hc)
    have hfr := (s.setSubscriber v f).remove_frame l (s.ends e).index e
    have hframe : s.Frame (((s.setSubscriber v f).remove l (s.ends e).index e).waitableJoin (s.ends e).index none) :=
      ⟨hfr.ends, hfr.endCount, hfr.tasks, hfr.sleeps, fun w => (hfr.of w).trans (hof w)⟩
    have hnone : (((s.setSubscriber v f).remove l (s.ends e).index e).waitableJoin (s.ends e).index none).Unlisted e := by
      refine hrem.unlisted_of_index fun l' => ?_
      rw [hframe.ends]
      cases hw : ((s.setSubscriber v f).remove l (s.ends e).index e).subscribers l' (s.ends e).index with
      | none => exact hw
      | some w => exact absurd rfl (hless l' _ w hw).2
    exact ⟨hrem.settled (by rw [hframe.of, he]; exact hnone), hnone, hframe⟩
  · rename_i hnone
    have hall : ∀ l', s.subscribers l' (s.ends e).index = none := by
      intro l'
      cases hv : s.subscribers l' (s.ends e).index with
      | none => rfl
      | some v =>
        have hlane := (hi.entries _ _ v hv).lane
        rw [hmine l' v hv, hl] at hlane
        rw [← hlane, hnone] at hv
        cases hv
    have hout : s.joined (s.ends e).index = none := by
      cases hj : s.joined (s.ends e).index with
      | none => rfl
      | some l' =>
        obtain ⟨v, hv, -⟩ := hi.joined _ l' hj
        rw [hall l'] at hv
        cases hv
    rw [waitableJoin_none hout]
    have hun := hi.unlisted_of_index hall
    exact ⟨hi.settled (by rw [he]; exact hun), hun, rfl, rfl, rfl, fun _ _ => Iff.rfl, fun _ => rfl⟩

/-- A detached handle has nothing to detach. -/
theorem Inv.detached (hi : s.Inv none) (hlt : e < s.endCount) (hopen : (s.ends e).closed = false)
    (hnone : s.Unlisted e) : s.detachWaitable l e = s := by
  have hall : ∀ l', s.subscribers l' (s.ends e).index = none := by
    intro l'
    cases hv : s.subscribers l' (s.ends e).index with
    | none => rfl
    | some v => exact absurd (hi.entry_of hlt hopen hv) (hnone l' _ v hv)
  rw [detachWaitable]
  rw [hall l]
  refine waitableJoin_none ?_
  cases hj : s.joined (s.ends e).index with
  | none => rfl
  | some l' =>
    obtain ⟨v, hv, -⟩ := hi.joined _ l' hj
    rw [hall l'] at hv
    cases hv

/-- A call is over. -/
theorem Inv.leaveSubtask (hi : s.Inv (some u)) (he : (s.subscriber u).of = e) (hl : (s.subscriber u).lane = l)
    (hopen : (s.ends e).closed = false) :
    (s.leaveSubtask l e).Inv none ∧ (s.cancelSubtask l e).Inv none := by
  have hb := hi.busy u rfl
  obtain ⟨hdet, hnone, hframe⟩ := hi.detach he hl hopen
  have hlt : e < (s.detachWaitable l e).endCount := by
    rw [hframe.endCount]
    exact he ▸ hb.of_lt
  have hop : ((s.detachWaitable l e).ends e).closed = false := by
    rw [hframe.ends]
    exact hopen
  have hkind : ((s.detachWaitable l e).ends e).kind ≠ .wakeup := by
    rw [hframe.ends]
    exact he ▸ hb.kind
  have hfree : (s.detachWaitable l e).Free e := hframe.free (he ▸ hb.free)
  have hleft : (s.leaveSubtask l e).Inv none := by
    rw [State.leaveSubtask]
    exact (hdet.dropEnd hlt hop hnone fun l' w hw => hdet.notWakeup hkind hw).finishRead hfree
  refine ⟨hleft, ?_⟩
  rw [cancelSubtask, State.leaveSubtask, hdet.detached hlt hop hnone]
  exact hleft

/-- The turn of the loop of `suspend_for_subtask` after the call has its entry. -/
theorem Inv.await (hi : s.Inv (some u)) (he : (s.subscriber u).of = e) (hl : (s.subscriber u).lane = l)
    {c : CoroId} (hcurr : s.sched.currCoro = some c) (hlane : (s.sched.coros c).lane = l)
    (hbusy : (s.ends e).busy = true) (hdisc : (s.ends e).discarding = false)
    (hopen : (s.ends e).closed = false) (hentry : s.subscribers l (s.ends e).index = some u) :
    (s.cancelSubtask l e).Inv none ∧ ({ s with sched := s.sched.suspend c (.event u) } : State).Inv none := by
  have hidx := (hi.entries _ _ u hentry).index
  refine ⟨(hi.leaveSubtask he hl hopen).2, hi.sleep hcurr ?_ ?_ ?_ ?_ ?_⟩
  · rw [he, hidx]
  · rw [he]
    exact hbusy
  · rw [hl]
    exact hlane
  · rw [hl, hidx]
    exact hentry
  · rw [he]
    exact hdisc

theorem awaitSubtask_ok {c : CoroId} (hok : s.awaitSubtask c l u e = .ok s') :
    ∃ s2, s2 = (s.subscribe l (s.ends e).index (some u)).waitableJoin (s.ends e).index (some l) ∧
      (s' = s2.cancelSubtask l e ∨ s' = { s2 with sched := s2.sched.suspend c (.event u) }) := by
  rw [awaitSubtask] at hok
  refine ⟨_, rfl, ?_⟩
  split at hok
  · cases hok
  · dsimp only at hok
    split at hok
    · cases hok
      exact Or.inl rfl
    · cases hok
      exact Or.inr rfl

/-- A call that is not over when it returns. -/
theorem Inv.suspendForSubtask (hi : s.Inv none) {c : CoroId} (hcurr : s.sched.currCoro = some c)
    (hfree : s.table h = none) (hheard : s.Heard (s.sched.coros c).lane h)
    (hok : s.suspendForSubtask c h = .ok s') : s'.Inv none := by
  rw [State.suspendForSubtask] at hok
  split at hok
  · have hnew : (s.newEnd .subtask h true).Inv none := hi.newEnd _ _ hfree
    have hself : (s.newEnd .subtask h true).ends s.endCount = ⟨.subtask, h, false, true, false, false, 0⟩ := by
      simp only [State.newEnd, Function.update_self]
    have hr : (s.newEnd .subtask h true).Ready c s.endCount := by
      refine ⟨hcurr, Nat.lt_succ_self _, ?_, ?_, ?_, ?_, ?_, ?_⟩ <;> try rw [hself]
      · simp
      · exact fun d v hd heq => Nat.ne_of_lt (hi.waits d v hd).of_lt heq
      · exact hheard
    have hcount : c < s.sched.coroId := hi.sched.spawned fun heq => by
      rw [(hi.sched.running c).mpr hcurr] at heq
      cases heq
    have hent := hr.subscribed hnew [c] fun d hd => by
      rw [List.mem_singleton.mp hd]
      exact hcount
    have hidx : ((s.newEnd .subtask h true).ends s.endCount).index = h := congrArg End.index hself
    obtain ⟨s2, hs2, hres⟩ := awaitSubtask_ok hok
    have hent2 : s2.Inv (some s.subs) := by
      rw [hs2]
      rw [hidx] at hent
      dsimp only
      rw [hidx]
      exact hent
    have hsub : s2.subscriber s.subs = ⟨none, [c], (s.sched.coros c).lane, h, s.endCount⟩ := by
      rw [hs2]
      exact Function.update_self ..
    have hends : s2.ends s.endCount = ⟨.subtask, h, false, true, false, false, 0⟩ := by
      rw [hs2]
      exact hself
    have hsched : s2.sched = s.sched := by rw [hs2]; rfl
    have hboth := hent2.await (c := c) (congrArg Subscriber.of hsub) (congrArg Subscriber.lane hsub)
      ((congrArg Scheduler.currCoro hsched).trans hcurr) (congrArg (fun x => (x.coros c).lane) hsched)
      (congrArg End.busy hends) (congrArg End.discarding hends) (congrArg End.closed hends) (by
        rw [hends, hs2]
        dsimp only
        rw [hidx]
        simp only [waitableJoin, subscribe, Function.update_self])
    rcases hres with rfl | rfl
    · exact hboth.1
    · exact hboth.2
  · cases hok

/-- The loop of `suspend_for_subtask` begins again, whatever set the handle is in. -/
theorem Inv.awaitAgain (hi : (s.waitableJoin h none).Inv (some u)) {c : CoroId} (hcurr : s.sched.currCoro = some c)
    (hlt : u < s.subs) {cs : List CoroId} (hsub : s.subscriber u = ⟨none, cs, l, h, e⟩)
    (hlane : (s.sched.coros c).lane = l) (hidx : (s.ends e).index = h) (hbusy : (s.ends e).busy = true)
    (hdisc : (s.ends e).discarding = false) (hat : s.table h = some e)
    (hnone : ∀ l', s.subscribers l' h = none)
    (hheard : ∀ d v, s.Sleeps d v → (s.subscriber v).lane = l → (s.subscriber v).index ≠ h)
    (hok : s.awaitSubtask c l u e = .ok s') : s'.Inv none := by
  have hof : (s.subscriber u).of = e := by rw [hsub]
  have hl : (s.subscriber u).lane = l := by rw [hsub]
  have hent := hi.enter (l := l) (h := h) hlt hl (congrArg Subscriber.index hsub)
    (hat.trans (congrArg some hof.symm)) (congrArg Subscriber.event hsub) hnone hheard (Or.inr rfl)
  obtain ⟨s2, hs2, hres⟩ := awaitSubtask_ok hok
  have hsame : s2 = ((s.waitableJoin h none).subscribe l h (some u)).waitableJoin h (some l) := by
    rw [hs2, hidx]
    simp only [waitableJoin, subscribe, Function.update_idem]
  rw [← hsame] at hent
  have hsched : s2.sched = s.sched := by rw [hs2]; rfl
  have hends : s2.ends = s.ends := by rw [hs2]; rfl
  have hopen : (s.ends e).closed = false := (hi.table h e hat).2.2
  have hboth := hent.await (c := c) (l := l) (e := e) (by rw [hs2]; exact hof) (by rw [hs2]; exact hl)
    (by rw [hsched]; exact hcurr) (by rw [hsched]; exact hlane) (by rw [hends]; exact hbusy)
    (by rw [hends]; exact hdisc) (by rw [hends]; exact hopen) (by
      rw [hends, hidx, hsame]
      simp only [waitableJoin, subscribe, Function.update_self])
  rcases hres with rfl | rfl
  · exact hboth.1
  · exact hboth.2

/-! ## Going on -/

/-- A coroutine goes on with the operation of `u`, which has its entry unless a closer
has removed it. -/
theorem Inv.resumed (hi : s.Inv (some u)) {c : CoroId} (hcurr : s.sched.currCoro = some c) (hw : s.Waiting c u)
    {interrupted : Bool} {reply : Events} (hok : s.resumed c u interrupted reply = .ok s') : s'.Inv none := by
  rcases hsub : s.subscriber u with ⟨event, cs, l, h, e⟩
  have hof : (s.subscriber u).of = e := by rw [hsub]
  have hl : (s.subscriber u).lane = l := by rw [hsub]
  have hh : (s.subscriber u).index = h := by rw [hsub]
  have hb := hi.busy u rfl
  have hlt : e < s.endCount := hof ▸ hb.of_lt
  have hkind : (s.ends e).kind ≠ .wakeup := hof ▸ hb.kind
  have hfree : s.Free e := hof ▸ hb.free
  have hbusy : (s.ends e).busy = true := hof ▸ hw.busy
  have hidx : (s.ends e).index = h := by
    rw [← hof, ← hh]
    exact hw.index
  have hplace := hw.place
  rw [hof, hl, hh, congrArg Subscriber.event hsub] at hplace
  have hentered : s.subscribers l h = some u → s.table h = some e ∧ (s.ends e).closed = false := fun hu => by
    have htab := (hi.entries l h u hu).table
    rw [hof] at htab
    exact ⟨htab, (hi.table h e htab).2.2⟩
  rw [State.resumed, hsub] at hok
  dsimp only at hok
  split at hok
  · rename_i hsubtask
    obtain ⟨hu, hdisc⟩ := hplace.resolve_right fun hno => by
      have hread := hno.2.2
      rw [hsubtask] at hread
      cases hread
    obtain ⟨hat, hopen⟩ := hentered hu
    split at hok
    · cases hok
      exact (hi.leaveSubtask hof hl hopen).2
    · obtain ⟨hrem, hless⟩ := hi.remove hu hof fun d hd => absurd hof (hfree d u hd)
      have hfr := s.remove_frame l h e
      have hnone : ∀ l', (s.remove l h e).subscribers l' h = none := fun l' => by
        cases hv : (s.remove l h e).subscribers l' h with
        | none => rfl
        | some v => exact absurd rfl (hless l' h v hv).2
      have hun : ∀ l' h', (s.remove l h e).subscribers l' h' ≠ some u := fun l' h' hv => by
        obtain ⟨hold, hne⟩ := hless l' h' u hv
        exact hne ((hi.entries l' h' u hold).index.symm.trans hh)
      have hheard : ∀ d v, s.Sleeps d v → (s.subscriber v).lane = l → (s.subscriber v).index ≠ h := by
        rintro d v hd rfl rfl
        rcases (hi.waits d v hd).place with ⟨hin, -⟩ | ⟨hout, -⟩
        · obtain rfl := Option.some.inj (hin.symm.trans hu)
          exact hfree d v hd hof
        · rw [hu] at hout
          cases hout
      obtain ⟨subscribers', removals', heq⟩ := s.remove_cases l h e
      split at hok
      · split at hok
        · cases hok
          have hout := (hi.entries l h u hu).outside (by rw [hsub]; nofun)
          rw [waitableJoin_none (by rw [remove_joined]; exact hout)] at hrem
          rw [heq] at hrem ⊢
          exact (hrem.leaveSubtask hof hl hopen).1
        · let f : Subscriber → Subscriber := fun x => { x with event := none }
          have hclear : (((s.remove l h e).setSubscriber u f).waitableJoin h none).Inv (some u) :=
            hrem.setSubscriber (f := f) ⟨fun _ => rfl, fun _ => rfl, fun _ => rfl⟩
              (Or.inr ⟨fun d hd => hfree d u ((hfr.sleeps d u).mp hd) hof, hun⟩) (hrem.coro u)
          have hself : ((s.remove l h e).setSubscriber u f).subscriber u = ⟨none, cs, l, h, e⟩ := by
            rw [heq]
            simp only [State.setSubscriber, Function.update_self, f, hsub]
          have hkeep : ∀ v, ((s.setSubscriber u f).subscriber v).lane = (s.subscriber v).lane ∧
              ((s.setSubscriber u f).subscriber v).index = (s.subscriber v).index := fun v =>
            ⟨setSubscriber_keeps (s := s) (u := u) (f := f) Subscriber.lane (fun _ => rfl) v,
              setSubscriber_keeps (s := s) (u := u) (f := f) Subscriber.index (fun _ => rfl) v⟩
          rw [heq] at hself hclear hok hnone
          refine hclear.awaitAgain hcurr hw.lt hself (hw.lane.trans hl) hidx hbusy hdisc hat hnone
            (fun d v hd hlv hhv => ?_) hok
          exact hheard d v hd ((hkeep v).1.symm.trans hlv) ((hkeep v).2.symm.trans hhv)
      · rw [heq] at hrem hok hnone
        exact hrem.awaitAgain hcurr hw.lt hsub (hw.lane.trans hl) hidx hbusy hdisc hat hnone hheard hok
  · rename_i hsubtask
    let f : Subscriber → Subscriber := fun x => { x with coro := x.coro.erase c }
    have hset : (s.setSubscriber u f).Inv (some u) :=
      hi.setSubscriber (f := f) ⟨fun _ => rfl, fun _ => rfl, fun _ => rfl⟩ (Or.inl rfl)
        fun d hd => hi.coro u d (List.mem_of_mem_erase hd)
    have hself : (s.setSubscriber u f).subscriber u = ⟨event, cs.erase c, l, h, e⟩ := by
      simp only [State.setSubscriber, Function.update_self, f, hsub]
    have hsof : ((s.setSubscriber u f).subscriber u).of = e := congrArg Subscriber.of hself
    split at hok
    · rename_i ev
      have hfr := (s.setSubscriber u f).remove_frame l h e
      have hrem : ((s.setSubscriber u f).remove l h e).Inv none := by
        rcases hplace with ⟨hu, hdisc⟩ | ⟨hnone, -⟩
        · obtain ⟨hrem, hless⟩ := hset.remove (l := l) (h := h) (e := e) hu hsof fun d hd =>
            absurd hof (hfree d u hd)
          have hout := (hi.entries l h u hu).outside (by rw [hsub]; nofun)
          rw [waitableJoin_none (by rw [remove_joined]; exact hout)] at hrem
          refine hrem.settle fun l' h' hv => ?_
          obtain ⟨hold, hne⟩ := hless l' h' u hv
          exact hne ((hi.entries l' h' u hold).index.symm.trans hh)
        · have hsame : (s.setSubscriber u f).remove l h e = s.setSubscriber u f := by
            have hno : (s.setSubscriber u f).subscribers l h = none := hnone
            rw [State.remove, hno]
          rw [hsame]
          refine hset.settle fun l' h' hv => ?_
          have he := hi.entries l' h' u hv
          have hv' : s.subscribers l' h' = some u := hv
          rw [← he.lane, ← he.index, hl, hh, hnone] at hv'
          cases hv'
      refine hrem.completed (e := e) ?_ ?_ ?_ hok
      · rw [hfr.endCount]
        exact hlt
      · rw [hfr.ends]
        exact hkind
      · intro d v hd
        rw [hfr.of]
        exact (setSubscriber_keeps (s := s) (u := u) (f := f) Subscriber.of (fun _ => rfl) v).trans_ne
          (hfree d v ((hfr.sleeps d v).mp hd))
    · split at hok
      · obtain ⟨hu, hdisc⟩ := hplace.resolve_right fun hno => hno.2.1 rfl
        exact hset.raised hsof (hentered hu).2 hbusy hdisc hok
      · cases hok

/-- One turn of a round. -/
theorem Inv.resume (hi : s.Inv none) (hcurr : s.sched.currCoro = none) {reply : Events}
    (hok : s.resume l reply = .ok s') : s'.Inv none := by
  rw [State.resume] at hok
  split at hok
  · cases hok
    exact hi
  · rename_i c rest hqueue
    have hstill : ∀ u, ¬s.Sleeps c u → s.sched.Keeps (s.sched.reschedule l) (.event u) := fun u hno =>
      .reschedule hqueue hno
    dsimp only at hok
    split at hok
    · rename_i u hu
      have hrun : (s.sched.reschedule l).currCoro = some c := by
        refine ((hi.sched.reschedule hcurr l).running c).mp ?_
        rw [s.sched.reschedule_first hqueue, hu]
      have htaken := hi.take hcurr hqueue hu
      refine htaken.resumed hrun ?_ hok
      refine { hi.waits c u hu with lane := ?_ }
      rw [s.sched.reschedule_first hqueue]
      exact (hi.waits c u hu).lane
    · rename_i hstart
      cases hok
      have hround : ({ s with sched := s.sched.reschedule l } : State).Inv none :=
        hi.keeps (hi.sched.reschedule hcurr l) (Nat.le_of_eq Scheduler.reschedule_coroId.symm) fun u =>
          hstill u (by rw [Sleeps, hstart]; simp)
      refine hround.withSched (hround.sched.set rfl rfl rfl) (Nat.le_refl _) (fun d u => ?_) fun d u _ => ?_
      all_goals
        simp only [Scheduler.shield, Scheduler.set, Sleeps]
        by_cases hd : d = c
        · subst hd
          rw [Function.update_self]
        · rw [Function.update_of_ne hd]
    · rename_i hno _
      cases hok
      exact hi.keeps (hi.sched.reschedule hcurr l) (Nat.le_of_eq Scheduler.reschedule_coroId.symm) fun u =>
        hstill u (hno u)

/-! ## The wakeup of a task and the events of the host -/

/-- The armed wakeup, or nothing, has the entry of the reader. -/
theorem Inv.wakeup_entry (hi : s.Inv none) {w : TaskWakeup} (hw : (s.tasks l).wakeup = some w) {l' : Lane}
    (hu : s.subscribers l' h = some u) (hof : (s.subscriber u).of = w.reader) : l' = l ∧ w.reading = true := by
  rcases (hi.entries l' h u hu).owner with ⟨c, hc⟩ | ⟨w', hw', hr, hwe⟩ | hou
  · refine absurd ?_ (hi.waits c u hc).kind
    rw [hof]
    exact (hi.wakeup l w hw).2.1
  · obtain rfl := hi.wakeups l l' w w' hw hw' (hof.symm.trans hwe.symm)
    rw [hw] at hw'
    cases hw'
    exact ⟨rfl, hr⟩
  · cases hou

/-- The read of the wakeup ends: its entry is removed, if it has one. -/
theorem Inv.disarm (hi : s.Inv none) {w : TaskWakeup} (hw : (s.tasks l).wakeup = some w) :
    let s' := ((s.setTask l fun t => { t with wakeup := some { w with reading := false } }).remove l
      (s.ends w.reader).index w.reader).waitableJoin (s.ends w.reader).index none
    s'.Inv none ∧ s'.Unlisted w.reader := by
  intro s'
  obtain ⟨hlt, hkind, hopen⟩ := hi.wakeup l w hw
  let f : Task → Task := fun t => { t with wakeup := some { w with reading := false } }
  have hkeep : ∀ {s0 : State}, s0.Inv none → s0.tasks = s.tasks → s0.ends = s.ends → s0.endCount = s.endCount →
      s0.Unlisted w.reader → (s0.setTask l f).Inv none := by
    intro s0 h0 htasks hends hcount hnone
    refine h0.setTask (fun w' hw' => ?_) fun h' u hu ha => ?_
    · cases hw'
      rw [htasks, hends, hcount]
      exact ⟨hlt, hkind, hopen, fun l' w' hw' heq => hi.wakeups l' l w' w hw' hw heq⟩
    · obtain ⟨w', hw', -, hwe⟩ := ha
      rw [htasks, hw] at hw'
      cases hw'
      exact absurd hwe.symm (hnone l h' u hu)
  cases hu : s.subscribers l (s.ends w.reader).index with
  | some u =>
    have hof := hi.entry_of hlt hopen hu
    obtain ⟨hrem, hless⟩ := hi.remove hu hof fun c hc => by
      refine absurd ?_ (hi.waits c u hc).kind
      rw [hof]
      exact hkind
    obtain ⟨subscribers', removals', heq⟩ := s.remove_cases l (s.ends w.reader).index w.reader
    have hnone : ((s.remove l (s.ends w.reader).index w.reader).waitableJoin (s.ends w.reader).index none).Unlisted
        w.reader := by
      refine hrem.unlisted_of_index fun l' => ?_
      have hends : ((s.remove l (s.ends w.reader).index w.reader).waitableJoin
          (s.ends w.reader).index none).ends = s.ends := by
        rw [heq]
        rfl
      rw [hends]
      cases hv : (s.remove l (s.ends w.reader).index w.reader).subscribers l' (s.ends w.reader).index with
      | none => exact hv
      | some v => exact absurd rfl (hless l' _ v hv).2
    have hset := hkeep hrem (by rw [heq]; rfl) (by rw [heq]; rfl) (by rw [heq]; rfl) hnone
    have hsame : s' = ((s.remove l (s.ends w.reader).index w.reader).waitableJoin
        (s.ends w.reader).index none).setTask l f := by
      have hu' : (s.setTask l f).subscribers l (s.ends w.reader).index = some u := hu
      simp only [s', State.remove]
      rw [hu, hu']
      rfl
    rw [hsame]
    exact ⟨hset, hnone⟩
  | none =>
    have hall : ∀ l', s.subscribers l' (s.ends w.reader).index = none := by
      intro l'
      cases hv : s.subscribers l' (s.ends w.reader).index with
      | none => rfl
      | some v =>
        obtain ⟨rfl, -⟩ := hi.wakeup_entry hw hv (hi.entry_of hlt hopen hv)
        rw [hu] at hv
        cases hv
    have hout : s.joined (s.ends w.reader).index = none := by
      cases hj : s.joined (s.ends w.reader).index with
      | none => rfl
      | some l' =>
        obtain ⟨v, hv, -⟩ := hi.joined _ l' hj
        rw [hall l'] at hv
        cases hv
    have hnone := hi.unlisted_of_index hall
    have hsame : s' = s.setTask l f := by
      have hu' : (s.setTask l f).subscribers l (s.ends w.reader).index = none := hu
      have hout' : (s.setTask l f).joined (s.ends w.reader).index = none := hout
      simp only [s', State.remove]
      rw [hu']
      exact waitableJoin_none hout'
    rw [hsame]
    exact ⟨hkeep hi rfl rfl rfl hnone, hnone⟩

/-- An event of the host finds its subscriber. -/
theorem Inv.notifySubscriber (hi : s.Inv none) (hj : s.joined h = some l) (event : Events) :
    ∃ s', s.notifySubscriber l h event = .ok s' ∧ s'.Inv none := by
  obtain ⟨u, hu, -⟩ := hi.joined h l hj
  have hnotify : ∃ s', notifySubscriber.notify s l h event = .ok s' ∧ s'.Inv none := by
    let f : Subscriber → Subscriber := fun x => { x with event := some event }
    refine ⟨((s.setSubscriber u f).wakeAll (s.subscriber u).coro).waitableJoin h none, ?_, ?_⟩
    · rw [State.notifySubscriber.notify, hu]
    · have hsig := hi.signal (f := f) ⟨fun _ => rfl, fun _ => rfl, fun _ => rfl⟩ nofun (hi.coro u) hu
      exact hsig.wakeAll (hi.coro u)
  rw [State.notifySubscriber]
  split
  · rename_i w hw
    split
    · rename_i hidx
      have hdis := (hi.disarm hw).1
      rw [hidx] at hdis
      exact ⟨_, rfl, hdis⟩
    · exact hnotify
  · exact hnotify

theorem Inv.cancelTaskWakeupRead (hi : s.Inv none) (l : Lane) : (s.cancelTaskWakeupRead l).Inv none ∧
    (s.cancelTaskWakeupRead l).endCount = s.endCount ∧
    ∀ w, (s.tasks l).wakeup = some w → (s.cancelTaskWakeupRead l).Unlisted w.reader ∧
      ∃ w', ((s.cancelTaskWakeupRead l).tasks l).wakeup = some w' ∧ w'.reader = w.reader ∧ w'.reading = false := by
  rw [State.cancelTaskWakeupRead]
  split
  · rename_i w hw
    split
    · have hdis := hi.disarm hw
      have hsame : ((s.waitableJoin (s.ends w.reader).index none).remove l (s.ends w.reader).index w.reader).setTask l
          (fun t => { t with wakeup := some { w with reading := false } }) =
          ((s.setTask l fun t => { t with wakeup := some { w with reading := false } }).remove l
            (s.ends w.reader).index w.reader).waitableJoin (s.ends w.reader).index none := by
        simp only [State.remove]
        cases hu : s.subscribers l (s.ends w.reader).index with
        | none =>
          have h1 : (s.waitableJoin (s.ends w.reader).index none).subscribers l (s.ends w.reader).index = none := hu
          have h2 : (s.setTask l fun t => { t with wakeup := some { w with reading := false } }).subscribers l
            (s.ends w.reader).index = none := hu
          rw [h1, h2]
          rfl
        | some u =>
          have h1 : (s.waitableJoin (s.ends w.reader).index none).subscribers l (s.ends w.reader).index = some u := hu
          have h2 : (s.setTask l fun t => { t with wakeup := some { w with reading := false } }).subscribers l
            (s.ends w.reader).index = some u := hu
          rw [h1, h2]
          rfl
      dsimp only
      rw [hsame]
      obtain ⟨subscribers', removals', heq⟩ := (s.setTask l fun t =>
        { t with wakeup := some { w with reading := false } }).remove_cases l (s.ends w.reader).index w.reader
      refine ⟨hdis.1, by rw [heq]; rfl, fun w' hw' => ?_⟩
      obtain rfl := Option.some.inj (hw.symm.trans hw')
      refine ⟨hdis.2, { w with reading := false }, ?_, rfl, rfl⟩
      rw [heq]
      simp only [waitableJoin, State.setTask, Function.update_self]
    · rename_i hidle
      refine ⟨hi, rfl, fun w' hw' => ?_⟩
      obtain rfl := Option.some.inj (hw.symm.trans hw')
      exact ⟨fun l' h' u hu hof => hidle (hi.wakeup_entry hw hu hof).2, w, hw, rfl, Bool.not_eq_true _ ▸ hidle⟩
  · rename_i hnone
    refine ⟨hi, rfl, fun w hw => ?_⟩
    rw [hnone] at hw
    cases hw

theorem Inv.dropTaskWakeup (hi : s.Inv none) (l : Lane) : (s.dropTaskWakeup l).Inv none := by
  rw [State.dropTaskWakeup]
  split
  · rename_i w hw
    obtain ⟨hc, hcount, hrest⟩ := hi.cancelTaskWakeupRead l
    obtain ⟨hnone, w', hw', hreader, hidle⟩ := hrest w hw
    generalize s.cancelTaskWakeupRead l = s1 at hc hcount hnone hw' ⊢
    obtain ⟨hlt, hkind, hopen⟩ := hc.wakeup l w' hw'
    have hset : (s1.setTask l fun t => { t with wakeup := none }).Inv none := by
      refine hc.setTask nofun fun h' u hu ha => ?_
      obtain ⟨w2, hw2, -, hwe⟩ := ha
      rw [hw'] at hw2
      cases hw2
      exact absurd (hwe.symm.trans hreader) (hnone l h' u hu)
    have hdrop := hset.dropEnd (e := w.reader) (hreader ▸ hlt) (hreader ▸ hopen) hnone fun l' w2 hw2 heq => by
      by_cases hl : l' = l
      · subst hl
        simp only [State.setTask, Function.update_self] at hw2
        cases hw2
      · simp only [State.setTask, Function.update_of_ne hl] at hw2
        exact hl (hc.wakeups l' l w2 w' hw2 hw' (heq.trans hreader.symm))
    exact hdrop
  · exact hi

theorem Inv.finishWaitableset (hi : s.Inv none) (hok : s.finishWaitableset l = .ok s') : s'.Inv none := by
  rw [State.finishWaitableset] at hok
  split at hok
  · cases hok
    have hdrop := hi.dropTaskWakeup l
    refine hdrop.setTask (fun w hw => ?_) fun h u hu ha => ?_
    · obtain ⟨h1, h2, h3⟩ := hdrop.wakeup l w hw
      exact ⟨h1, h2, h3, fun l' w' hw' heq => hdrop.wakeups l' l w' w hw' hw heq⟩
    · obtain ⟨w, hw, hr⟩ := ha
      refine ⟨w, ?_, hr⟩
      simp only [State.setTask, Function.update_self]
      exact hw
  · cases hok

/-- The wakeup of a task is read. -/
theorem Inv.arm (hi : s.Inv none) {w : TaskWakeup} (hlt : w.reader < s.endCount)
    (hkind : (s.ends w.reader).kind = .wakeup) (hopen : (s.ends w.reader).closed = false)
    (hmine : ∀ l' w', (s.tasks l').wakeup = some w' → w'.reader = w.reader → l' = l)
    (hidle : ∀ w', (s.tasks l).wakeup = some w' → w'.reading = false)
    (hnone : s.subscribers l (s.ends w.reader).index = none) (hheard : s.Heard l (s.ends w.reader).index) :
    (((({ s with
      subscriber := Function.update s.subscriber s.subs ⟨none, [], l, (s.ends w.reader).index, w.reader⟩
      subs := s.subs + 1 } : State).subscribe l (s.ends w.reader).index (some s.subs)).waitableJoin
        (s.ends w.reader).index (some l)).setTask l fun t =>
          { t with wakeup := some { w with reading := true } }).Inv none := by
  let f : Task → Task := fun t => { t with wakeup := some { w with reading := true } }
  have hset : (s.setTask l f).Inv none := by
    refine hi.setTask (fun w' hw' => ?_) fun h' u hu ha => ?_
    · cases hw'
      exact ⟨hlt, hkind, hopen, hmine⟩
    · obtain ⟨w', hw', hr, -⟩ := ha
      rw [hidle w' hw'] at hr
      cases hr
  have hall : ∀ l', s.subscribers l' (s.ends w.reader).index = none := by
    intro l'
    cases hv : s.subscribers l' (s.ends w.reader).index with
    | none => rfl
    | some v =>
      have hof := hi.entry_of hlt hopen hv
      rcases (hi.entries l' _ v hv).owner with ⟨c, hc⟩ | ⟨w', hw', -, hwe⟩ | hou
      · refine absurd ?_ (hi.waits c v hc).kind
        rw [hof]
        exact hkind
      · obtain rfl := hmine l' w' hw' (hwe.trans hof)
        rw [hnone] at hv
        cases hv
      · cases hou
  let x : Subscriber := ⟨none, [], l, (s.ends w.reader).index, w.reader⟩
  have hreg := hset.register (x := x) nofun
  have hself : Function.update s.subscriber s.subs x s.subs = x := Function.update_self ..
  refine hreg.enter (u := s.subs) (l := l) (h := (s.ends w.reader).index) (Nat.lt_succ_self _)
    (congrArg Subscriber.lane hself) (congrArg Subscriber.index hself) ?_ (congrArg Subscriber.event hself) hall
    (fun c v hc hlane hindex => ?_) (Or.inl ⟨{ w with reading := true }, ?_, rfl, (congrArg Subscriber.of hself).symm⟩)
  · exact (hi.ends w.reader hlt hopen).trans (congrArg (some ∘ Subscriber.of) hself).symm
  · have hv : Function.update s.subscriber s.subs x v = s.subscriber v :=
      Function.update_of_ne (Nat.ne_of_lt (hi.waits c v hc).lt) ..
    have hin := hheard c v hc ((congrArg Subscriber.lane hv).symm.trans hlane)
      ((congrArg Subscriber.index hv).symm.trans hindex)
    rw [hnone] at hin
    cases hin
  · simp only [State.setTask, Function.update_self, f]

theorem Inv.armTaskWakeup (hi : s.Inv none) (hfree : (s.tasks l).wakeup = none → s.table h = none)
    (hheard : s.Heard l (match (s.tasks l).wakeup with
      | some wakeup => (s.ends wakeup.reader).index
      | none => h)) (hok : s.armTaskWakeup l h = .ok s') : s'.Inv none := by
  rw [State.armTaskWakeup] at hok
  cases hw : (s.tasks l).wakeup with
  | some w =>
    rw [hw] at hok hheard
    dsimp only at hok hheard
    obtain ⟨hlt, hkind, hopen⟩ := hi.wakeup l w hw
    split at hok
    · cases hok
      exact hi
    · rename_i hidle
      split at hok
      · cases hok
      · rename_i hnone
        cases hok
        refine hi.arm hlt hkind hopen (fun l' w' hw' heq => hi.wakeups l' l w' w hw' hw heq) (fun w' hw' => ?_)
          hnone hheard
        rw [hw] at hw'
        cases hw'
        exact Bool.not_eq_true _ ▸ hidle
  | none =>
    rw [hw] at hok hheard
    dsimp only at hok hheard
    have hnew := hi.newEnd .wakeup false (hfree hw)
    have hself : (s.newEnd .wakeup h false).ends s.endCount = ⟨.wakeup, h, false, false, false, false, 0⟩ := by
      simp only [State.newEnd, Function.update_self]
    split at hok
    · rename_i hr
      cases hr
    · split at hok
      · cases hok
      · rename_i hnone
        cases hok
        refine hnew.arm (w := ⟨s.endCount, false⟩) (Nat.lt_succ_self _) (congrArg End.kind hself)
          (congrArg End.closed hself) (fun l' w' hw' heq => ?_) (fun w' hw' => ?_) hnone ?_
        · exact absurd heq (Nat.ne_of_lt (hi.wakeup l' w' hw').1)
        · have hw'' : (s.tasks l).wakeup = some w' := hw'
          rw [hw] at hw''
          cases hw''
        · rw [hself]
          exact hheard

end State

end Subscription

end Moonbit

end WitBindgen
