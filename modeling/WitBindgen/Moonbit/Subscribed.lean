import WitBindgen.Moonbit.Subscription

/-!
# The subscriptions of every run

An entry of the map belongs to an operation that waits, to the armed wakeup of its task,
or, within a step, to the operation of the running coroutine. A waiting operation that
has no entry any more has its event from whoever closed its end, and will find the map
without one: that is what the reuse of the index destroys.
-/

namespace WitBindgen

namespace Moonbit

namespace Subscription

namespace State

variable {s : State} {o : Option SubscriberId} {l : Lane} {h : Index} {e : EndId} {u : SubscriberId}

/-- Coroutine `c` waits for the event of `u`. -/
def Sleeps (s : State) (c : CoroId) (u : SubscriberId) : Prop := (s.sched.coros c).state = .suspend (.event u)

/-- No coroutine waits on the end. -/
def Free (s : State) (e : EndId) : Prop := ∀ c u, s.Sleeps c u → (s.subscriber u).of ≠ e

structure Waiting (s : State) (c : CoroId) (u : SubscriberId) : Prop where
  lt : u < s.subs
  of_lt : (s.subscriber u).of < s.endCount
  index : (s.ends (s.subscriber u).of).index = (s.subscriber u).index
  kind : (s.ends (s.subscriber u).of).kind ≠ .wakeup
  busy : (s.ends (s.subscriber u).of).busy = true
  lane : (s.sched.coros c).lane = (s.subscriber u).lane
  place : s.subscribers (s.subscriber u).lane (s.subscriber u).index = some u ∧
      (s.ends (s.subscriber u).of).discarding = false ∨
    s.subscribers (s.subscriber u).lane (s.subscriber u).index = none ∧
      (s.subscriber u).event ≠ none ∧ (s.ends (s.subscriber u).of).kind.isRead = true

/-- The entry is that of the armed wakeup of the task. -/
def Armed (s : State) (l : Lane) (u : SubscriberId) : Prop :=
  ∃ wakeup, (s.tasks l).wakeup = some wakeup ∧ wakeup.reading = true ∧ wakeup.reader = (s.subscriber u).of

structure Entry (o : Option SubscriberId) (s : State) (l : Lane) (h : Index) (u : SubscriberId) : Prop where
  lane : (s.subscriber u).lane = l
  index : (s.subscriber u).index = h
  lt : u < s.subs
  table : s.table h = some (s.subscriber u).of
  inside : (s.subscriber u).event = none → s.joined h = some l
  outside : (s.subscriber u).event ≠ none → s.joined h = none
  owner : (∃ c, s.Sleeps c u) ∨ s.Armed l u ∨ o = some u

/-- The running coroutine is in the operation of `u`. -/
structure Operating (s : State) (u : SubscriberId) : Prop where
  lt : u < s.subs
  of_lt : (s.subscriber u).of < s.endCount
  free : s.Free (s.subscriber u).of
  kind : (s.ends (s.subscriber u).of).kind ≠ .wakeup

/-- What holds between two events, and within one while the running coroutine is in the
operation of `o`. -/
structure Inv (o : Option SubscriberId) (s : State) : Prop where
  sched : s.sched.Inv
  coro : ∀ u, ∀ c ∈ (s.subscriber u).coro, c < s.sched.coroId
  waits : ∀ c u, s.Sleeps c u → s.Waiting c u
  unique : ∀ c d u v, s.Sleeps c u → s.Sleeps d v → (s.subscriber u).of = (s.subscriber v).of → c = d
  entries : ∀ l h u, s.subscribers l h = some u → s.Entry o l h u
  busy : ∀ u, o = some u → s.Operating u
  joined : ∀ h l, s.joined h = some l → ∃ u, s.subscribers l h = some u ∧ (s.subscriber u).event = none
  table : ∀ h e, s.table h = some e → e < s.endCount ∧ (s.ends e).index = h ∧ (s.ends e).closed = false
  ends : ∀ e < s.endCount, (s.ends e).closed = false → s.table (s.ends e).index = some e
  wakeup : ∀ l wakeup, (s.tasks l).wakeup = some wakeup → wakeup.reader < s.endCount ∧
    (s.ends wakeup.reader).kind = .wakeup ∧ (s.ends wakeup.reader).closed = false
  wakeups : ∀ l l' w w', (s.tasks l).wakeup = some w → (s.tasks l').wakeup = some w' →
    w.reader = w'.reader → l = l'
  latched : ∀ e, (s.ends e).discarding = true → (s.ends e).cleanupDone = true
  own : ∀ p ∈ s.removals, p.1 = p.2

/-! ## What the invariant says -/

theorem sleeps_unique {c : CoroId} {v : SubscriberId} (hu : s.Sleeps c u) (hv : s.Sleeps c v) : u = v := by
  have heq : CoroState.suspend (Waits.event u) = .suspend (.event v) := hu.symm.trans hv
  cases heq
  rfl

/-- An index has at most one entry in all tasks. -/
theorem Inv.entry_unique (hi : s.Inv o) {l' : Lane} {v : SubscriberId} (hu : s.subscribers l h = some u)
    (hv : s.subscribers l' h = some v) : l = l' ∧ u = v := by
  have eu := hi.entries l h u hu
  have ev := hi.entries l' h v hv
  have hof : (s.subscriber u).of = (s.subscriber v).of := Option.some.inj (eu.table.symm.trans ev.table)
  have hsame : u = v → l = l' ∧ u = v := fun heq => ⟨eu.lane.symm.trans (heq ▸ ev.lane), heq⟩
  rcases eu.owner with ⟨c, hc⟩ | ⟨w, hw, hwr, hwe⟩ | hou
  · rcases ev.owner with ⟨d, hd⟩ | ⟨w', hw', -, hwe'⟩ | hov
    · obtain rfl := hi.unique c d u v hc hd hof
      exact hsame (sleeps_unique hc hd)
    · refine absurd ?_ (hi.waits c u hc).kind
      rw [hof, ← hwe']
      exact (hi.wakeup l' w' hw').2.1
    · exact absurd hof ((hi.busy v hov).free c u hc)
  · rcases ev.owner with ⟨d, hd⟩ | ⟨w', hw', -, hwe'⟩ | hov
    · refine absurd ?_ (hi.waits d v hd).kind
      rw [← hof, ← hwe]
      exact (hi.wakeup l w hw).2.1
    · obtain rfl := hi.wakeups l l' w w' hw hw' (hwe.trans (hof.trans hwe'.symm))
      exact hsame (Option.some.inj (hu.symm.trans hv))
    · refine absurd ?_ (hi.busy v hov).kind
      rw [← hof, ← hwe]
      exact (hi.wakeup l w hw).2.1
  · rcases ev.owner with ⟨d, hd⟩ | ⟨w', hw', -, hwe'⟩ | hov
    · exact absurd hof.symm ((hi.busy u hou).free d v hd)
    · refine absurd ?_ (hi.busy u hou).kind
      rw [hof, ← hwe']
      exact (hi.wakeup l' w' hw').2.1
    · exact hsame (Option.some.inj (hou.symm.trans hov))

/-- The entries of an end on which nobody waits are those of the running operation. -/
theorem Inv.entry_free (hi : s.Inv o) (hfree : s.Free e) (hkind : (s.ends e).kind ≠ .wakeup)
    (hu : s.subscribers l h = some u) (hof : (s.subscriber u).of = e) : o = some u := by
  rcases (hi.entries l h u hu).owner with ⟨c, hc⟩ | ⟨w, hw, -, hwe⟩ | hou
  · exact absurd hof (hfree c u hc)
  · refine absurd ?_ hkind
    rw [← hof, ← hwe]
    exact (hi.wakeup l w hw).2.1
  · exact hou

/-- An end that is not busy has no waiter. -/
theorem Inv.free (hi : s.Inv o) (hbusy : (s.ends e).busy = false) : s.Free e := fun c u hc heq => by
  have hb := (hi.waits c u hc).busy
  rw [heq, hbusy] at hb
  cases hb

/-- The entry at the index of an open end is of that end. -/
theorem Inv.entry_of (hi : s.Inv o) (hlt : e < s.endCount) (hopen : (s.ends e).closed = false)
    (hu : s.subscribers l (s.ends e).index = some u) : (s.subscriber u).of = e :=
  Option.some.inj ((hi.entries _ _ u hu).table.symm.trans (hi.ends e hlt hopen))

theorem Inv.mono (hi : s.Inv none) (hu : s.Operating u) : s.Inv (some u) :=
  { hi with
    entries := fun l h v hv => { hi.entries l h v hv with
      owner := (hi.entries l h v hv).owner.imp id fun hor => hor.imp id nofun }
    busy := fun v hv => by
      cases hv
      exact hu }

/-- The running operation has no entry. -/
theorem Inv.settle (hi : s.Inv (some u)) (hno : ∀ l h, s.subscribers l h ≠ some u) : s.Inv none :=
  { hi with
    entries := fun l h v hv => { hi.entries l h v hv with
      owner := by
        rcases (hi.entries l h v hv).owner with hc | hw | hou
        · exact Or.inl hc
        · exact Or.inr (Or.inl hw)
        · cases hou
          exact absurd hv (hno l h) }
    busy := nofun }

/-! ## Changes elsewhere -/

/-- What happens to coroutines that wait for no subscriber. -/
theorem Inv.withSched (hi : s.Inv o) {sched : Scheduler Waits} (hs : sched.Inv)
    (hle : s.sched.coroId ≤ sched.coroId)
    (hstate : ∀ c u, (sched.coros c).state = .suspend (.event u) ↔ s.Sleeps c u)
    (hlane : ∀ c u, s.Sleeps c u → (sched.coros c).lane = (s.sched.coros c).lane) :
    ({ s with sched := sched } : State).Inv o where
  sched := hs
  coro u c hc := Nat.lt_of_lt_of_le (hi.coro u c hc) hle
  waits c u hc :=
    have hold := (hstate c u).mp hc
    { hi.waits c u hold with lane := (hlane c u hold).trans (hi.waits c u hold).lane }
  unique c d u v hc hd := hi.unique c d u v ((hstate c u).mp hc) ((hstate d v).mp hd)
  entries l h u hu := { hi.entries l h u hu with
    owner := (hi.entries l h u hu).owner.imp (fun ⟨c, hc⟩ => ⟨c, (hstate c u).mpr hc⟩) id }
  busy u hu := { hi.busy u hu with free := fun c v hc => (hi.busy u hu).free c v ((hstate c v).mp hc) }
  joined := hi.joined
  table := hi.table
  ends := hi.ends
  wakeup := hi.wakeup
  wakeups := hi.wakeups
  latched := hi.latched
  own := hi.own

theorem Inv.keeps (hi : s.Inv o) {sched : Scheduler Waits} (hs : sched.Inv)
    (hle : s.sched.coroId ≤ sched.coroId) (hk : ∀ u, s.sched.Keeps sched (.event u)) :
    ({ s with sched := sched } : State).Inv o :=
  hi.withSched hs hle (fun c u => (hk u).state c) fun c u hc => (hk u).lane c hc

theorem Inv.wake (hi : s.Inv o) {c : CoroId} (hc : c < s.sched.coroId) :
    ({ s with sched := s.sched.wake c } : State).Inv o := by
  refine hi.withSched (hi.sched.wake hc) (Nat.le_of_eq Scheduler.wake_coroId.symm) (fun d u => ?_) fun d u _ => ?_
  · rw [Scheduler.wake_state]
    rfl
  · rw [Scheduler.wake_coros]
    by_cases hd : d = c
    · subst hd
      rw [Function.update_self]
    · rw [Function.update_of_ne hd]

/-- The waiters of a subscriber are woken. -/
theorem Inv.wakeAll : ∀ {cs : List CoroId} {s : State}, s.Inv o → (∀ c ∈ cs, c < s.sched.coroId) →
    (s.wakeAll cs).Inv o
  | [], _, hi, _ => hi
  | c :: cs, s, hi, hcs => by
    have hwoken := hi.wake (hcs c (List.mem_cons_self ..))
    refine Inv.wakeAll (s := { s with sched := s.sched.wake c }) hwoken fun d hd => ?_
    rw [Scheduler.wake_coroId]
    exact hcs d (List.mem_cons_of_mem c hd)

/-- Such a change leaves a subscriber with the task, the index and the end that it was
made for. -/
structure Same (f : Subscriber → Subscriber) : Prop where
  lane : ∀ x, (f x).lane = x.lane
  index : ∀ x, (f x).index = x.index
  of : ∀ x, (f x).of = x.of

theorem setSubscriber_keeps {α : Type} (g : Subscriber → α) {f : Subscriber → Subscriber}
    (hf : ∀ x, g (f x) = g x) (v : SubscriberId) :
    g ((s.setSubscriber u f).subscriber v) = g (s.subscriber v) := by
  simp only [setSubscriber]
  by_cases hv : v = u
  · subst hv
    rw [Function.update_self, hf]
  · rw [Function.update_of_ne hv]

theorem setSubscriber_coro {f : Subscriber → Subscriber} (hi : s.Inv o)
    (hcoro : ∀ c ∈ (f (s.subscriber u)).coro, c < s.sched.coroId) :
    ∀ v, ∀ c ∈ ((s.setSubscriber u f).subscriber v).coro, c < s.sched.coroId := by
  intro v c hc
  simp only [setSubscriber] at hc
  by_cases hv : v = u
  · subst hv
    rw [Function.update_self] at hc
    exact hcoro c hc
  · rw [Function.update_of_ne hv] at hc
    exact hi.coro v c hc

theorem setSubscriber_ne {f : Subscriber → Subscriber} {v : SubscriberId} (hv : v ≠ u) :
    (s.setSubscriber u f).subscriber v = s.subscriber v := by
  simp only [setSubscriber, Function.update_of_ne hv]

/-- The waiters of a subscriber change, or its event where it is nobody's. -/
theorem Inv.setSubscriber (hi : s.Inv o) {f : Subscriber → Subscriber} (hf : Same f)
    (hevent : (f (s.subscriber u)).event = (s.subscriber u).event ∨
      (∀ c, ¬s.Sleeps c u) ∧ ∀ l h, s.subscribers l h ≠ some u)
    (hcoro : ∀ c ∈ (f (s.subscriber u)).coro, c < s.sched.coroId) :
    (s.setSubscriber u f).Inv o := by
  have hl := fun v => setSubscriber_keeps (s := s) (u := u) Subscriber.lane hf.lane v
  have hx := fun v => setSubscriber_keeps (s := s) (u := u) Subscriber.index hf.index v
  have ho := fun v => setSubscriber_keeps (s := s) (u := u) Subscriber.of hf.of v
  have hself : ((s.setSubscriber u f).subscriber u).event = (f (s.subscriber u)).event := by
    simp only [State.setSubscriber, Function.update_self]
  have hslept : ∀ c v, s.Sleeps c v → ((s.setSubscriber u f).subscriber v).event = (s.subscriber v).event := by
    intro c v hc
    by_cases hvu : v = u
    · subst hvu
      exact hself.trans (hevent.resolve_right fun hno => hno.1 c hc)
    · rw [setSubscriber_ne hvu]
  have hlisted : ∀ l h v, s.subscribers l h = some v →
      ((s.setSubscriber u f).subscriber v).event = (s.subscriber v).event := by
    intro l h v hv
    by_cases hvu : v = u
    · subst hvu
      exact hself.trans (hevent.resolve_right fun hno => hno.2 l h hv)
    · rw [setSubscriber_ne hvu]
  exact {
    sched := hi.sched
    coro := setSubscriber_coro hi hcoro
    waits := fun c v hc => by
      have hw := hi.waits c v hc
      have hv := hslept c v hc
      exact ⟨hw.lt, ho v ▸ hw.of_lt, by rw [ho, hx]; exact hw.index, by rw [ho]; exact hw.kind,
        by rw [ho]; exact hw.busy, by rw [hl]; exact hw.lane, by rw [ho, hx, hl, hv]; exact hw.place⟩
    unique := fun c d v w hc hd heq => hi.unique c d v w hc hd (by rw [ho, ho] at heq; exact heq)
    entries := fun l h v hu => by
      have he := hi.entries l h v hu
      have hv := hlisted l h v hu
      exact ⟨by rw [hl]; exact he.lane, by rw [hx]; exact he.index, he.lt, by rw [ho]; exact he.table,
        fun hn => he.inside (by rw [hv] at hn; exact hn), fun hn => he.outside (by rw [hv] at hn; exact hn),
        he.owner.imp id (Or.imp (fun ⟨w, h1, h2, h3⟩ => ⟨w, h1, h2, by rw [ho]; exact h3⟩) id)⟩
    busy := fun v hb => by
      have hb := hi.busy v hb
      exact ⟨hb.lt, by rw [ho]; exact hb.of_lt, fun c w hc => by rw [ho, ho]; exact hb.free c w hc,
        by rw [ho]; exact hb.kind⟩
    joined := fun h l hj => by
      obtain ⟨v, h1, h2⟩ := hi.joined h l hj
      exact ⟨v, h1, (hlisted l h v h1).trans h2⟩
    table := hi.table
    ends := hi.ends
    wakeup := hi.wakeup
    wakeups := hi.wakeups
    latched := hi.latched
    own := hi.own }

/-- The event of an entry arrives, or is made up by a closer. -/
theorem Inv.signal (hi : s.Inv o) {f : Subscriber → Subscriber} (hf : Same f)
    (hevent : (f (s.subscriber u)).event ≠ none) (hcoro : ∀ c ∈ (f (s.subscriber u)).coro, c < s.sched.coroId)
    (hu : s.subscribers l h = some u) : ((s.setSubscriber u f).waitableJoin h none).Inv o := by
  have hl := fun v => setSubscriber_keeps (s := s) (u := u) Subscriber.lane hf.lane v
  have hx := fun v => setSubscriber_keeps (s := s) (u := u) Subscriber.index hf.index v
  have ho := fun v => setSubscriber_keeps (s := s) (u := u) Subscriber.of hf.of v
  have hself : ((s.setSubscriber u f).subscriber u).event ≠ none := by
    simp only [State.setSubscriber, Function.update_self]
    exact hevent
  exact {
    sched := hi.sched
    coro := setSubscriber_coro hi hcoro
    waits := fun c v hc => by
      have hw := hi.waits c v hc
      refine ⟨hw.lt, ho v ▸ hw.of_lt, by simp only [waitableJoin]; rw [ho, hx]; exact hw.index,
        by simp only [waitableJoin]; rw [ho]; exact hw.kind,
        by simp only [waitableJoin]; rw [ho]; exact hw.busy, by simp only [waitableJoin]; rw [hl]; exact hw.lane, ?_⟩
      simp only [waitableJoin]
      rw [ho, hx, hl]
      refine hw.place.imp id fun ⟨h1, h2, h3⟩ => ⟨h1, ?_, h3⟩
      by_cases hvu : v = u
      · subst hvu
        exact hself
      · rw [setSubscriber_ne hvu]
        exact h2
    unique := fun c d v w hc hd heq => hi.unique c d v w hc hd (by
      simp only [waitableJoin] at heq
      rw [ho, ho] at heq
      exact heq)
    entries := fun l' h' v hv => by
      have he := hi.entries l' h' v hv
      refine ⟨by simp only [waitableJoin]; rw [hl]; exact he.lane, by simp only [waitableJoin]; rw [hx]; exact he.index,
        he.lt, by simp only [waitableJoin]; rw [ho]; exact he.table, fun hn => ?_, fun hn => ?_,
        he.owner.imp id (Or.imp (fun ⟨w, h1, h2, h3⟩ => ⟨w, h1, h2, by simp only [waitableJoin]; rw [ho]; exact h3⟩) id)⟩
      all_goals
        simp only [waitableJoin] at hn ⊢
        by_cases hh : h' = h
        · subst hh
          obtain ⟨rfl, rfl⟩ := hi.entry_unique hu hv
          first | exact absurd hn hself | rw [Function.update_self]
        · have hvu : v ≠ u := by
            rintro rfl
            exact hh (he.index.symm.trans (hi.entries l h v hu).index)
          rw [setSubscriber_ne hvu] at hn
          rw [Function.update_of_ne hh]
          first | exact he.inside hn | exact he.outside hn
    busy := fun v hb => by
      have hb := hi.busy v hb
      refine ⟨hb.lt, ?_, fun c w hc => ?_, ?_⟩ <;> simp only [waitableJoin] <;> rw [ho]
      · exact hb.of_lt
      · rw [ho]
        exact hb.free c w hc
      · exact hb.kind
    joined := fun h' l' hj => by
      simp only [waitableJoin] at hj ⊢
      by_cases hh : h' = h
      · subst hh
        rw [Function.update_self] at hj
        cases hj
      · rw [Function.update_of_ne hh] at hj
        obtain ⟨v, h1, h2⟩ := hi.joined h' l' hj
        refine ⟨v, h1, ?_⟩
        have hvu : v ≠ u := by
          rintro rfl
          exact hh ((hi.entries l' h' v h1).index.symm.trans (hi.entries l h v hu).index)
        rw [setSubscriber_ne hvu]
        exact h2
    table := hi.table
    ends := hi.ends
    wakeup := hi.wakeup
    wakeups := hi.wakeups
    latched := hi.latched
    own := hi.own }

/-- An entry is removed for the end that it is of, and its handle is in no set any more.
Whoever waits for it has its event. -/
theorem Inv.remove (hi : s.Inv o) (hu : s.subscribers l h = some u) (he : (s.subscriber u).of = e)
    (hwaits : ∀ c, s.Sleeps c u → (s.subscriber u).event ≠ none ∧ (s.ends e).kind.isRead = true) :
    ((s.remove l h e).waitableJoin h none).Inv o ∧ ∀ l' h' v, (s.remove l h e).subscribers l' h' = some v →
      s.subscribers l' h' = some v ∧ h' ≠ h := by
  have hmine := hi.entries l h u hu
  have hother : ∀ l' h' v, (s.remove l h e).subscribers l' h' = some v → s.subscribers l' h' = some v ∧ h' ≠ h := by
    intro l' h' v hv
    simp only [State.remove, hu, subscribe] at hv
    by_cases hl : l' = l
    · subst hl
      rw [Function.update_self] at hv
      by_cases hh : h' = h
      · subst hh
        rw [Function.update_self] at hv
        cases hv
      · rw [Function.update_of_ne hh] at hv
        exact ⟨hv, hh⟩
    · rw [Function.update_of_ne hl] at hv
      refine ⟨hv, ?_⟩
      rintro rfl
      exact hl (hi.entry_unique hv hu).1
  have hstay : ∀ l' h' v, v ≠ u → s.subscribers l' h' = some v → (s.remove l h e).subscribers l' h' = some v := by
    intro l' h' v hvu hv
    simp only [State.remove, hu, subscribe]
    by_cases hl : l' = l
    · subst hl
      rw [Function.update_self]
      by_cases hh : h' = h
      · subst hh
        exact absurd (Option.some.inj (hv.symm.trans hu)) hvu
      · rw [Function.update_of_ne hh]
        exact hv
    · rw [Function.update_of_ne hl]
      exact hv
  have hgone : (s.remove l h e).subscribers l h = none := by
    simp only [State.remove, hu, subscribe, Function.update_self]
  have hless : ∀ l' h', s.subscribers l' h' = none → (s.remove l h e).subscribers l' h' = none := by
    intro l' h' hn
    cases hv : (s.remove l h e).subscribers l' h' with
    | none => rfl
    | some v =>
      rw [(hother l' h' v hv).1] at hn
      cases hn
  have hrest : ∃ subscribers', s.remove l h e = { s with
      subscribers := subscribers'
      removals := s.removals ++ [(e, e)] } := ⟨(s.subscribe l h none).subscribers, by
    simp only [State.remove, hu, he]
    rfl⟩
  obtain ⟨subscribers', heq⟩ := hrest
  rw [heq] at hother hstay hgone hless ⊢
  refine ⟨?_, hother⟩
  exact {
    sched := hi.sched
    coro := hi.coro
    waits := fun c v hc => { hi.waits c v hc with
      place := by
        rcases (hi.waits c v hc).place with ⟨h1, h2⟩ | ⟨h1, h2⟩
        · by_cases hvu : v = u
          · subst hvu
            right
            refine ⟨?_, (hwaits c hc).1, he ▸ (hwaits c hc).2⟩
            have hplace : subscribers' (s.subscriber v).lane (s.subscriber v).index = none := by
              rw [hmine.lane, hmine.index]
              exact hgone
            exact hplace
          · exact Or.inl ⟨hstay _ _ v hvu h1, h2⟩
        · exact Or.inr ⟨hless _ _ h1, h2⟩ }
    unique := hi.unique
    entries := fun l' h' v hv => by
      obtain ⟨hold, hne⟩ := hother l' h' v hv
      have hent := hi.entries l' h' v hold
      exact { hent with
        inside := fun hn => by
          simp only [waitableJoin, Function.update_of_ne hne]
          exact hent.inside hn
        outside := fun hn => by
          simp only [waitableJoin, Function.update_of_ne hne]
          exact hent.outside hn }
    busy := fun u hu => { hi.busy u hu with }
    joined := fun h' l' hj => by
      simp only [waitableJoin] at hj ⊢
      by_cases hh : h' = h
      · subst hh
        rw [Function.update_self] at hj
        cases hj
      · rw [Function.update_of_ne hh] at hj
        obtain ⟨v, h1, h2⟩ := hi.joined h' l' hj
        refine ⟨v, hstay l' h' v ?_ h1, h2⟩
        rintro rfl
        exact hh ((hi.entries l' h' v h1).index.symm.trans hmine.index)
    table := hi.table
    ends := hi.ends
    wakeup := hi.wakeup
    wakeups := hi.wakeups
    latched := hi.latched
    own := fun p hp => by
      rcases List.mem_append.mp hp with hp | hp
      · exact hi.own p hp
      · rw [List.mem_singleton.mp hp] }

/-- A change of an end. Where somebody waits on it, it stays busy. -/
theorem Inv.setEnd (hi : s.Inv o) {f : End → End} (hkind : ∀ x, (f x).kind = x.kind)
    (hindex : ∀ x, (f x).index = x.index) (hclosed : ∀ x, (f x).closed = x.closed)
    (hlatch : (f (s.ends e)).discarding = true → (f (s.ends e)).cleanupDone = true)
    (hwaits : ∀ c u, s.Sleeps c u → (s.subscriber u).of = e → (f (s.ends e)).busy = true ∧
      s.subscribers (s.subscriber u).lane (s.subscriber u).index ≠ some u) : (s.setEnd e f).Inv o := by
  have hk : ∀ d, ((s.setEnd e f).ends d).kind = (s.ends d).kind := fun d => by
    simp only [State.setEnd]
    by_cases hd : d = e
    · subst hd; rw [Function.update_self, hkind]
    · rw [Function.update_of_ne hd]
  have hx : ∀ d, ((s.setEnd e f).ends d).index = (s.ends d).index := fun d => by
    simp only [State.setEnd]
    by_cases hd : d = e
    · subst hd; rw [Function.update_self, hindex]
    · rw [Function.update_of_ne hd]
  have hc : ∀ d, ((s.setEnd e f).ends d).closed = (s.ends d).closed := fun d => by
    simp only [State.setEnd]
    by_cases hd : d = e
    · subst hd; rw [Function.update_self, hclosed]
    · rw [Function.update_of_ne hd]
  have hne : ∀ d, d ≠ e → (s.setEnd e f).ends d = s.ends d := fun d hd => by
    simp only [State.setEnd, Function.update_of_ne hd]
  have hself : (s.setEnd e f).ends e = f (s.ends e) := by simp only [State.setEnd, Function.update_self]
  exact {
    sched := hi.sched
    coro := hi.coro
    waits := fun c u hs => by
      have hw := hi.waits c u hs
      by_cases hof : (s.subscriber u).of = e
      · have hrest := hwaits c u hs hof
        refine ⟨hw.lt, hw.of_lt, (hx _).trans hw.index, ?_, ?_, hw.lane, ?_⟩
        · exact (hk _).trans_ne hw.kind
        · exact (congrArg End.busy ((congrArg _ hof).trans hself)).trans hrest.1
        · rcases hw.place with ⟨h1, -⟩ | ⟨h1, h2, h3⟩
          · exact absurd h1 hrest.2
          · exact Or.inr ⟨h1, h2, (congrArg Kind.isRead (hk _)).trans h3⟩
      · have hend : (s.setEnd e f).ends (s.subscriber u).of = s.ends (s.subscriber u).of := hne _ hof
        exact ⟨hw.lt, hw.of_lt, (hx _).trans hw.index, (hk _).trans_ne hw.kind,
          (congrArg End.busy hend).trans hw.busy, hw.lane,
          hw.place.imp (And.imp_right (congrArg End.discarding hend).trans)
            (And.imp_right (And.imp_right (congrArg Kind.isRead (hk _)).trans))⟩
    unique := hi.unique
    entries := fun l h u hu => { hi.entries l h u hu with }
    busy := fun u hu => { hi.busy u hu with kind := (hk _).trans_ne (hi.busy u hu).kind }
    joined := hi.joined
    table := fun h d hd => ⟨(hi.table h d hd).1, (hx _).trans (hi.table h d hd).2.1, (hc _).trans (hi.table h d hd).2.2⟩
    ends := fun d hd hopen => by
      have hold := hi.ends d hd ((hc d).symm.trans hopen)
      exact (congrArg s.table (hx d)).trans hold
    wakeup := fun l w hw => ⟨(hi.wakeup l w hw).1, (hk _).trans (hi.wakeup l w hw).2.1, (hc _).trans (hi.wakeup l w hw).2.2⟩
    wakeups := hi.wakeups
    latched := fun d hd => by
      by_cases hde : d = e
      · subst hde
        rw [hself] at hd ⊢
        exact hlatch hd
      · rw [hne d hde] at hd ⊢
        exact hi.latched d hd
    own := hi.own }

/-- An open end that no entry is of, and that wakes no task, is dropped. -/
theorem Inv.dropEnd (hi : s.Inv o) (hlt : e < s.endCount) (hopen : (s.ends e).closed = false)
    (hnone : ∀ l h u, s.subscribers l h = some u → (s.subscriber u).of ≠ e)
    (hwakeup : ∀ l w, (s.tasks l).wakeup = some w → w.reader ≠ e) : (s.dropEnd e).Inv o := by
  have hat := hi.ends e hlt hopen
  have hstay : ∀ l h u, s.subscribers l h = some u → h ≠ (s.ends e).index := fun l h u hu heq => by
    have htab := (hi.entries l h u hu).table
    rw [heq, hat] at htab
    exact hnone l h u hu (Option.some.inj htab).symm
  have hrest : ∀ d, ((s.dropEnd e).ends d).kind = (s.ends d).kind ∧ ((s.dropEnd e).ends d).index = (s.ends d).index ∧
      ((s.dropEnd e).ends d).busy = (s.ends d).busy ∧ ((s.dropEnd e).ends d).discarding = (s.ends d).discarding ∧
      ((s.dropEnd e).ends d).cleanupDone = (s.ends d).cleanupDone := fun d => by
    simp only [State.dropEnd, State.setEnd]
    by_cases hd : d = e
    · subst hd
      rw [Function.update_self]
      exact ⟨rfl, rfl, rfl, rfl, rfl⟩
    · rw [Function.update_of_ne hd]
      exact ⟨rfl, rfl, rfl, rfl, rfl⟩
  have hclosed : ∀ d, d ≠ e → ((s.dropEnd e).ends d).closed = (s.ends d).closed := fun d hd => by
    simp only [State.dropEnd, State.setEnd, Function.update_of_ne hd]
  have hself : ((s.dropEnd e).ends e).closed = true := by
    simp only [State.dropEnd, State.setEnd, Function.update_self]
  have htable : ∀ h, h ≠ (s.ends e).index → (s.dropEnd e).table h = s.table h := fun h hh => by
    simp only [State.dropEnd, Function.update_of_ne hh]
  have hjoined : ∀ h, h ≠ (s.ends e).index → (s.dropEnd e).joined h = s.joined h := fun h hh => by
    simp only [State.dropEnd, Function.update_of_ne hh]
  exact {
    sched := hi.sched
    coro := hi.coro
    waits := fun c u hs => by
      have hw := hi.waits c u hs
      obtain ⟨h1, h2, h3, h4, -⟩ := hrest (s.subscriber u).of
      exact ⟨hw.lt, hw.of_lt, h2.trans hw.index, h1.trans_ne hw.kind, h3.trans hw.busy, hw.lane,
        hw.place.imp (And.imp_right h4.trans) (And.imp_right (And.imp_right (congrArg Kind.isRead h1).trans))⟩
    unique := hi.unique
    entries := fun l h u hu => { hi.entries l h u hu with
      table := (htable h (hstay l h u hu)).trans (hi.entries l h u hu).table
      inside := fun hn => (hjoined h (hstay l h u hu)).trans ((hi.entries l h u hu).inside hn)
      outside := fun hn => (hjoined h (hstay l h u hu)).trans ((hi.entries l h u hu).outside hn) }
    busy := fun u hu => { hi.busy u hu with kind := (hrest _).1.trans_ne (hi.busy u hu).kind }
    joined := fun h l hj => by
      by_cases hh : h = (s.ends e).index
      · subst hh
        simp only [State.dropEnd, Function.update_self] at hj
        cases hj
      · rw [hjoined h hh] at hj
        exact hi.joined h l hj
    table := fun h d hd => by
      by_cases hh : h = (s.ends e).index
      · subst hh
        simp only [State.dropEnd, Function.update_self] at hd
        cases hd
      · rw [htable h hh] at hd
        have hold := hi.table h d hd
        have hde : d ≠ e := by
          rintro rfl
          exact hh hold.2.1.symm
        exact ⟨hold.1, (hrest d).2.1.trans hold.2.1, (hclosed d hde).trans hold.2.2⟩
    ends := fun d hd hdopen => by
      have hde : d ≠ e := by
        rintro rfl
        rw [hself] at hdopen
        cases hdopen
      have hold := hi.ends d hd ((hclosed d hde).symm.trans hdopen)
      have hidx : (s.ends d).index ≠ (s.ends e).index := fun heq => by
        rw [heq, hat] at hold
        exact hde (Option.some.inj hold).symm
      rw [(hrest d).2.1, htable _ hidx]
      exact hold
    wakeup := fun l w hw => by
      have hold := hi.wakeup l w hw
      exact ⟨hold.1, (hrest _).1.trans hold.2.1, (hclosed _ (hwakeup l w hw)).trans hold.2.2⟩
    wakeups := hi.wakeups
    latched := fun d hd => by
      obtain ⟨-, -, -, h4, h5⟩ := hrest d
      rw [h4] at hd
      exact h5.trans (hi.latched d hd)
    own := hi.own }

/-- The host gives the guest a handle under a free index. -/
theorem Inv.newEnd (hi : s.Inv o) (kind : Kind) (busy : Bool) (hfree : s.table h = none) :
    (s.newEnd kind h busy).Inv o := by
  have hne : ∀ d, d < s.endCount → (s.newEnd kind h busy).ends d = s.ends d := fun d hd => by
    simp only [State.newEnd, Function.update_of_ne (Nat.ne_of_lt hd)]
  have hself : (s.newEnd kind h busy).ends s.endCount = ⟨kind, h, false, busy, false, false, 0⟩ := by
    simp only [State.newEnd, Function.update_self]
  have htable : ∀ h' d, s.table h' = some d → (s.newEnd kind h busy).table h' = some d := fun h' d hd => by
    have hh : h' ≠ h := by
      rintro rfl
      rw [hfree] at hd
      cases hd
    simp only [State.newEnd, Function.update_of_ne hh]
    exact hd
  exact {
    sched := hi.sched
    coro := hi.coro
    waits := fun c u hs => by
      have hw := hi.waits c u hs
      have heq := hne _ hw.of_lt
      exact ⟨hw.lt, Nat.lt_succ_of_lt hw.of_lt, (congrArg End.index heq).trans hw.index,
        (congrArg End.kind heq).trans_ne hw.kind, (congrArg End.busy heq).trans hw.busy, hw.lane,
        hw.place.imp (And.imp_right (congrArg End.discarding heq).trans)
          (And.imp_right (And.imp_right (congrArg (fun x => x.kind.isRead) heq).trans))⟩
    unique := hi.unique
    entries := fun l h' u hu => { hi.entries l h' u hu with
      table := htable _ _ (hi.entries l h' u hu).table }
    busy := fun u hu => { hi.busy u hu with
      of_lt := Nat.lt_succ_of_lt (hi.busy u hu).of_lt
      kind := (congrArg End.kind (hne _ (hi.busy u hu).of_lt)).trans_ne (hi.busy u hu).kind }
    joined := hi.joined
    table := fun h' d hd => by
      by_cases hh : h' = h
      · subst hh
        simp only [State.newEnd, Function.update_self] at hd
        obtain rfl := Option.some.inj hd
        exact ⟨Nat.lt_succ_self _, congrArg End.index hself, congrArg End.closed hself⟩
      · simp only [State.newEnd, Function.update_of_ne hh] at hd
        have hold := hi.table h' d hd
        have heq := hne d hold.1
        exact ⟨Nat.lt_succ_of_lt hold.1, (congrArg End.index heq).trans hold.2.1, (congrArg End.closed heq).trans hold.2.2⟩
    ends := fun d hd hopen => by
      rcases Nat.lt_succ_iff_lt_or_eq.mp hd with hlt | rfl
      · have heq := hne d hlt
        rw [heq] at hopen
        exact (congrArg (s.newEnd kind h busy).table (congrArg End.index heq)).trans
          (htable _ _ (hi.ends d hlt hopen))
      · rw [hself]
        simp only [State.newEnd, Function.update_self]
    wakeup := fun l w hw => by
      have hold := hi.wakeup l w hw
      have heq := hne _ hold.1
      exact ⟨Nat.lt_succ_of_lt hold.1, (congrArg End.kind heq).trans hold.2.1, (congrArg End.closed heq).trans hold.2.2⟩
    wakeups := hi.wakeups
    latched := fun d hd => by
      by_cases hlt : d = s.endCount
      · subst hlt
        rw [hself] at hd
        cases hd
      · have heq : (s.newEnd kind h busy).ends d = s.ends d := by
          simp only [State.newEnd, Function.update_of_ne hlt]
        rw [heq] at hd ⊢
        exact hi.latched d hd
    own := hi.own }

/-- A subscriber is made for an end. -/
theorem Inv.register (hi : s.Inv o) {x : Subscriber} (hcoro : ∀ c ∈ x.coro, c < s.sched.coroId) :
    ({ s with subscriber := Function.update s.subscriber s.subs x, subs := s.subs + 1 } : State).Inv o := by
  have hne : ∀ v, v < s.subs → Function.update s.subscriber s.subs x v = s.subscriber v := fun v hv =>
    Function.update_of_ne (Nat.ne_of_lt hv) ..
  exact {
    sched := hi.sched
    coro := fun v c hc => by
      by_cases hv : v = s.subs
      · subst hv
        simp only [Function.update_self] at hc
        exact hcoro c hc
      · simp only [Function.update_of_ne hv] at hc
        exact hi.coro v c hc
    waits := fun c v hs => by
      have hw := hi.waits c v hs
      have heq := hne v hw.lt
      refine ⟨Nat.lt_succ_of_lt hw.lt, ?_, ?_, ?_, ?_, ?_, ?_⟩ <;> dsimp only <;> rw [heq]
      · exact hw.of_lt
      · exact hw.index
      · exact hw.kind
      · exact hw.busy
      · exact hw.lane
      · exact hw.place
    unique := fun c d v w hc hd hof => by
      dsimp only at hof
      rw [hne v (hi.waits c v hc).lt, hne w (hi.waits d w hd).lt] at hof
      exact hi.unique c d v w hc hd hof
    entries := fun l h v hv => by
      have he := hi.entries l h v hv
      have heq := hne v he.lt
      refine ⟨?_, ?_, Nat.lt_succ_of_lt he.lt, ?_, ?_, ?_, he.owner.imp id (Or.imp ?_ id)⟩
      all_goals try dsimp only [Armed]
      all_goals rw [heq]
      · exact he.lane
      · exact he.index
      · exact he.table
      · exact he.inside
      · exact he.outside
      · exact id
    busy := fun v hv => by
      have hb := hi.busy v hv
      have heq := hne v hb.lt
      refine ⟨Nat.lt_succ_of_lt hb.lt, ?_, fun c w hc => ?_, ?_⟩ <;> dsimp only <;> rw [heq]
      · exact hb.of_lt
      · rw [hne w (hi.waits c w hc).lt]
        exact hb.free c w hc
      · exact hb.kind
    joined := fun h l hj => by
      obtain ⟨v, h1, h2⟩ := hi.joined h l hj
      exact ⟨v, h1, (congrArg Subscriber.event (hne v (hi.entries l h v h1).lt)).trans h2⟩
    table := hi.table
    ends := hi.ends
    wakeup := hi.wakeup
    wakeups := hi.wakeups
    latched := hi.latched
    own := hi.own }

/-- A subscriber gets its entry, and its handle is put into the set. Nobody may still
have to hear that an entry under this index is gone. -/
theorem Inv.enter (hi : s.Inv o) (hlt : u < s.subs) (hlane : (s.subscriber u).lane = l)
    (hindex : (s.subscriber u).index = h) (htable : s.table h = some (s.subscriber u).of)
    (hevent : (s.subscriber u).event = none) (hnone : ∀ l', s.subscribers l' h = none)
    (hheard : ∀ c v, s.Sleeps c v → (s.subscriber v).lane = l → (s.subscriber v).index ≠ h)
    (howner : s.Armed l u ∨ o = some u) : ((s.subscribe l h (some u)).waitableJoin h (some l)).Inv o := by
  have hself : (s.subscribe l h (some u)).subscribers l h = some u := by
    simp only [subscribe, Function.update_self]
  have hstay : ∀ l' h', ¬(l' = l ∧ h' = h) → (s.subscribe l h (some u)).subscribers l' h' = s.subscribers l' h' := by
    intro l' h' hne
    simp only [subscribe]
    by_cases hl : l' = l
    · subst hl
      rw [Function.update_self, Function.update_of_ne fun hh => hne ⟨rfl, hh⟩]
    · rw [Function.update_of_ne hl]
  have hjne : ∀ h', h' ≠ h → ((s.subscribe l h (some u)).waitableJoin h (some l)).joined h' = s.joined h' := by
    intro h' hh
    simp only [waitableJoin, subscribe, Function.update_of_ne hh]
  exact {
    sched := hi.sched
    coro := hi.coro
    waits := fun c v hs => { hi.waits c v hs with
      place := by
        have hne : ¬((s.subscriber v).lane = l ∧ (s.subscriber v).index = h) := fun ⟨h1, h2⟩ => hheard c v hs h1 h2
        exact (hi.waits c v hs).place.imp (And.imp_left (hstay _ _ hne).trans)
          (And.imp_left (hstay _ _ hne).trans) }
    unique := hi.unique
    entries := fun l' h' v hv => by
      by_cases hhere : l' = l ∧ h' = h
      · obtain ⟨rfl, rfl⟩ := hhere
        obtain rfl := Option.some.inj (hself.symm.trans hv)
        refine ⟨hlane, hindex, hlt, htable, fun _ => ?_, fun hn => absurd hevent hn, Or.inr howner⟩
        simp only [waitableJoin, Function.update_self]
      · have hold : s.subscribers l' h' = some v := (hstay l' h' hhere).symm.trans hv
        have hh : h' ≠ h := by
          rintro rfl
          rw [hnone l'] at hold
          cases hold
        have he := hi.entries l' h' v hold
        exact { he with
          inside := fun hn => (hjne h' hh).trans (he.inside hn)
          outside := fun hn => (hjne h' hh).trans (he.outside hn) }
    busy := fun u hu => { hi.busy u hu with }
    joined := fun h' l' hj => by
      by_cases hh : h' = h
      · subst hh
        simp only [waitableJoin, Function.update_self] at hj
        obtain rfl := Option.some.inj hj
        exact ⟨u, hself, hevent⟩
      · rw [hjne h' hh] at hj
        obtain ⟨v, h1, h2⟩ := hi.joined h' l' hj
        exact ⟨v, (hstay l' h' fun heq => hh heq.2).trans h1, h2⟩
    table := hi.table
    ends := hi.ends
    wakeup := hi.wakeup
    wakeups := hi.wakeups
    latched := hi.latched
    own := hi.own }

/-- The running coroutine waits for the event of its operation. -/
theorem Inv.sleep (hi : s.Inv (some u)) {c : CoroId} (hcurr : s.sched.currCoro = some c)
    (hindex : (s.ends (s.subscriber u).of).index = (s.subscriber u).index)
    (hbusy : (s.ends (s.subscriber u).of).busy = true) (hlane : (s.sched.coros c).lane = (s.subscriber u).lane)
    (hentry : s.subscribers (s.subscriber u).lane (s.subscriber u).index = some u)
    (hdisc : (s.ends (s.subscriber u).of).discarding = false) :
    ({ s with sched := s.sched.suspend c (.event u) } : State).Inv none := by
  have hrun := (hi.sched.running c).mpr hcurr
  have hsleeps : ∀ d v, ({ s with sched := s.sched.suspend c (.event u) } : State).Sleeps d v →
      (d = c ∧ v = u) ∨ (d ≠ c ∧ s.Sleeps d v) := by
    intro d v hd
    by_cases hdc : d = c
    · subst hdc
      simp only [Sleeps, Scheduler.suspend, Scheduler.set, Function.update_self] at hd
      cases hd
      exact Or.inl ⟨rfl, rfl⟩
    · simp only [Sleeps, Scheduler.suspend, Scheduler.set, Function.update_of_ne hdc] at hd
      exact Or.inr ⟨hdc, hd⟩
  have hforth : ∀ d v, s.Sleeps d v → ({ s with sched := s.sched.suspend c (.event u) } : State).Sleeps d v := by
    intro d v hd
    have hdc : d ≠ c := by
      rintro rfl
      rw [Sleeps, hrun] at hd
      cases hd
    simp only [Sleeps, Scheduler.suspend, Scheduler.set, Function.update_of_ne hdc]
    exact hd
  have hself : ({ s with sched := s.sched.suspend c (.event u) } : State).Sleeps c u := by
    simp only [Sleeps, Scheduler.suspend, Scheduler.set, Function.update_self]
  have hcoros : ∀ d, ((s.sched.suspend c (.event u)).coros d).lane = (s.sched.coros d).lane := by
    intro d
    by_cases hdc : d = c
    · subst hdc
      simp only [Scheduler.suspend, Scheduler.set, Function.update_self]
    · simp only [Scheduler.suspend, Scheduler.set, Function.update_of_ne hdc]
  have hb := hi.busy u rfl
  exact {
    sched := hi.sched.leave hcurr (by simp)
    coro := hi.coro
    waits := fun d v hd => by
      rcases hsleeps d v hd with ⟨rfl, rfl⟩ | ⟨-, hold⟩
      · exact ⟨hb.lt, hb.of_lt, hindex, hb.kind, hbusy, (hcoros d).trans hlane, Or.inl ⟨hentry, hdisc⟩⟩
      · exact { hi.waits d v hold with lane := (hcoros d).trans (hi.waits d v hold).lane }
    unique := fun d d' v v' hd hd' heq => by
      rcases hsleeps d v hd with ⟨rfl, rfl⟩ | ⟨-, hold⟩
      · rcases hsleeps d' v' hd' with ⟨rfl, rfl⟩ | ⟨-, hold'⟩
        · rfl
        · exact absurd heq.symm (hb.free d' v' hold')
      · rcases hsleeps d' v' hd' with ⟨rfl, rfl⟩ | ⟨-, hold'⟩
        · exact absurd heq (hb.free d v hold)
        · exact hi.unique d d' v v' hold hold' heq
    entries := fun l h v hv => { hi.entries l h v hv with
      owner := by
        rcases (hi.entries l h v hv).owner with ⟨d, hd⟩ | hw | hou
        · exact Or.inl ⟨d, hforth d v hd⟩
        · exact Or.inr (Or.inl hw)
        · cases hou
          exact Or.inl ⟨c, hself⟩ }
    busy := by simp
    joined := hi.joined
    table := hi.table
    ends := hi.ends
    wakeup := hi.wakeup
    wakeups := hi.wakeups
    latched := hi.latched
    own := hi.own }

/-- The coroutine that waits for the event of `u` goes on. -/
theorem Inv.take (hi : s.Inv none) {c : CoroId} {rest : List CoroId} (hcurr : s.sched.currCoro = none)
    (hqueue : s.sched.runLater l = c :: rest) (hc : s.Sleeps c u) :
    ({ s with sched := s.sched.reschedule l } : State).Inv (some u) := by
  have hsleeps : ∀ d v, ({ s with sched := s.sched.reschedule l } : State).Sleeps d v ↔ d ≠ c ∧ s.Sleeps d v := by
    intro d v
    simp only [Sleeps]
    by_cases hdc : d = c
    · subst hdc
      have hstate : (s.sched.coros d).state = .suspend (.event u) := hc
      rw [s.sched.reschedule_first hqueue, hstate]
      exact iff_of_false nofun fun hh => hh.1 rfl
    · rw [s.sched.reschedule_other hqueue hdc]
      exact ⟨fun hh => ⟨hdc, hh⟩, And.right⟩
  have hw := hi.waits c u hc
  exact {
    sched := hi.sched.reschedule hcurr l
    coro := fun v d hd => Nat.lt_of_lt_of_le (hi.coro v d hd) (Nat.le_of_eq Scheduler.reschedule_coroId.symm)
    waits := fun d v hd => by
      obtain ⟨hne, hold⟩ := (hsleeps d v).mp hd
      exact { hi.waits d v hold with
        lane := (congrArg Coroutine.lane (s.sched.reschedule_other hqueue hne)).trans (hi.waits d v hold).lane }
    unique := fun d d' v v' hd hd' => hi.unique d d' v v' ((hsleeps d v).mp hd).2 ((hsleeps d' v').mp hd').2
    entries := fun l' h v hv => { hi.entries l' h v hv with
      owner := by
        rcases (hi.entries l' h v hv).owner with ⟨d, hd⟩ | hw | hou
        · by_cases hdc : d = c
          · subst hdc
            exact Or.inr (Or.inr (congrArg some (sleeps_unique hc hd)))
          · exact Or.inl ⟨d, (hsleeps d v).mpr ⟨hdc, hd⟩⟩
        · exact Or.inr (Or.inl hw)
        · cases hou }
    busy := fun v hv => by
      cases hv
      refine ⟨hw.lt, hw.of_lt, fun d v hd heq => ?_, hw.kind⟩
      obtain ⟨hne, hold⟩ := (hsleeps d v).mp hd
      exact hne (hi.unique d c v u hold hc heq)
    joined := hi.joined
    table := hi.table
    ends := hi.ends
    wakeup := hi.wakeup
    wakeups := hi.wakeups
    latched := hi.latched
    own := hi.own }

/-- The wakeup of a task changes. An entry that it had is still of an armed wakeup. -/
theorem Inv.setTask (hi : s.Inv o) {f : Task → Task}
    (hwakeup : ∀ w, (f (s.tasks l)).wakeup = some w → w.reader < s.endCount ∧
      (s.ends w.reader).kind = .wakeup ∧ (s.ends w.reader).closed = false ∧
      ∀ l' w', (s.tasks l').wakeup = some w' → w'.reader = w.reader → l' = l)
    (harmed : ∀ h u, s.subscribers l h = some u → s.Armed l u → (s.setTask l f).Armed l u) :
    (s.setTask l f).Inv o := by
  have hself : (s.setTask l f).tasks l = f (s.tasks l) := by simp only [State.setTask, Function.update_self]
  have hne : ∀ l', l' ≠ l → (s.setTask l f).tasks l' = s.tasks l' := fun l' hl => by
    simp only [State.setTask, Function.update_of_ne hl]
  exact {
    sched := hi.sched
    coro := hi.coro
    waits := fun c u hs => { hi.waits c u hs with }
    unique := hi.unique
    entries := fun l' h u hu => { hi.entries l' h u hu with
      owner := (hi.entries l' h u hu).owner.imp id (Or.imp (fun ha => by
        by_cases hl : l' = l
        · subst hl
          exact harmed h u hu ha
        · obtain ⟨w, h1, h2⟩ := ha
          exact ⟨w, (congrArg Task.wakeup (hne l' hl)).trans h1, h2⟩) id) }
    busy := fun u hu => { hi.busy u hu with }
    joined := hi.joined
    table := hi.table
    ends := hi.ends
    wakeup := fun l' w hw => by
      by_cases hl : l' = l
      · subst hl
        rw [hself] at hw
        exact ⟨(hwakeup w hw).1, (hwakeup w hw).2.1, (hwakeup w hw).2.2.1⟩
      · rw [hne l' hl] at hw
        exact hi.wakeup l' w hw
    wakeups := fun l1 l2 w1 w2 h1 h2 heq => by
      by_cases hl1 : l1 = l
      · by_cases hl2 : l2 = l
        · exact hl1.trans hl2.symm
        · subst hl1
          rw [hself] at h1
          rw [hne l2 hl2] at h2
          exact ((hwakeup w1 h1).2.2.2 l2 w2 h2 heq.symm).symm
      · by_cases hl2 : l2 = l
        · subst hl2
          rw [hself] at h2
          rw [hne l1 hl1] at h1
          exact (hwakeup w2 h2).2.2.2 l1 w1 h1 heq
        · rw [hne l1 hl1] at h1
          rw [hne l2 hl2] at h2
          exact hi.wakeups l1 l2 w1 w2 h1 h2 heq
    latched := hi.latched
    own := hi.own }

end State

end Subscription

end Moonbit

end WitBindgen
