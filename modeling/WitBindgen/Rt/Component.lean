import WitBindgen.Rt.Membership
import WitBindgen.Rt.Subtask

/-!
# The tasks of a component and its operations

All operations of a component, on whatever waitables, with the executor of its tasks. A
step is one of the executor, which runs the callback of an operation where it delivers
an event, or a call of an operation. Both edit the same maps and sets. The executor is that
of a build with the features `inter-task-wakeup` and `async-spawn`.
-/

namespace WitBindgen

namespace Rt

/-- An operation with its history, away from the maps. -/
structure Slot (S : WaitableOp) where
  self : WaitableOperation S
  calls : List OpCall
  dropped : Bool

/-- An operation is known by the address of its completion status. -/
structure Component (S : Ptr → WaitableOp) where
  executor : Executor.State
  slot : (p : Ptr) → Slot (S p)

namespace Component

variable {S : Ptr → WaitableOp}

/-- The operation as it sees the component. -/
def world (c : Component S) (p : Ptr) : World (S p) where
  self := (c.slot p).self
  addr := p
  tasks := c.executor.maps
  calls := (c.slot p).calls
  dropped := (c.slot p).dropped

def setExecutor (c : Component S) (s : Executor.State) : Component S := { c with executor := s }

/-- The operation at `p` has made a step. -/
def put (c : Component S) (p : Ptr) (w : World (S p)) : Component S where
  executor := { c.executor with maps := w.tasks }
  slot := Function.update c.slot p ⟨w.self, w.calls, w.dropped⟩

/-! ## Runs -/

/-- A step of the executor, where `code` is that of the event it delivers, or a call of
an operation. `renew` puts a new operation in the place of one that is over. -/
inductive Event (S : Ptr → WaitableOp) where
  | task (e : Executor.Event) (code : Code)
  | op (p : Ptr) (e : Rt.Event)
  | renew (p : Ptr) (op : (S p).σ) (s : (S p).Start)

def exec (c : Component S) : Event S → Except Panic (Component S)
  | .task e code =>
    match c.executor.exec e with
    | .ok (none, s) => .ok (c.setExecutor s)
    | .ok (some p, s) => (c.setExecutor s).put p <$> ((c.setExecutor s).world p).cabiWake code
    | .error text => .error (.own text)
  | .op p e => c.put p <$> (c.world p).exec e
  | .renew p op s => .ok (c.put p { c.world p with self := .new op s, calls := [], dropped := false })

/-- The handle is of no wakeup stream. -/
def NoStream (c : Component S) (h : Waitable) : Prop := ∀ t, (c.executor.task t).stream ≠ some h

/-- What the users of the operations and the host may do: an operation is polled in a
task that is not over, which is one of this runtime, and the host gives out handles that
are not in use. -/
def allowed (C : (p : Ptr) → (S p).Contract) (c : Component S) : Event S → Prop
  | .task e _ => c.executor.allowed e ∧ (∀ maps, e ≠ .edit maps) ∧ ∀ h ∈ e.handle, ∀ p, ¬(c.world p).Ours h
  | .op p e => World.allowed (C p) (c.world p) e ∧
      match e with
      | .poll _ task answer => task.version = wasip3TaskV2 ∧ (c.executor.task task.ptr).phase ≠ .none ∧
          (c.executor.task task.ptr).phase ≠ .dropped ∧
          ∀ h, (c.world p).Starts answer h → c.NoStream h ∧ ∀ q, ¬(c.world q).Ours h
      | .cancel .. | .drop .. => True
      | .deliver .. | .other _ => False
  | .renew p _ _ => (c.world p).self.isDone = true

/-- No task has started, and no operation. -/
def fresh (c : Component S) : Prop :=
  c.executor = .fresh ∧ ∀ p, ∃ op s, c.slot p = ⟨.new op s, [], false⟩

/-- Every run of a component. -/
def system (C : (p : Ptr) → (S p).Contract) : System (Component S) (Event S) Panic where
  init := fresh
  allowed := allowed C
  exec := exec

/-! ## The invariant -/

structure Inv (c : Component S) : Prop where
  executor : c.executor.Inv
  ops : ∀ p, (c.world p).Inv
  held : ∀ p, (c.world p).Held
  linked : ∀ h, c.NoStream h → c.executor.maps.LinkedAt h
  stream : ∀ t h, (c.executor.task t).stream = some h → ∀ t', c.executor.maps.waitables t' h = none
  distinct : ∀ p q h, (c.world p).Ours h → (c.world q).Ours h → p = q
  apart : ∀ p h, (c.world p).Ours h → c.NoStream h

variable {c c' : Component S} {p q t : Ptr} {h : Waitable}

/-- An entry of a map belongs to an operation that waits there and has a clone of the
task. -/
theorem Inv.entry (hi : c.Inv) (hentry : c.executor.maps.waitables t h = some p) :
    (c.world p).Ours h ∧ (c.world p).self.task = some ⟨t, some h⟩ := by
  have hat : (c.world p).tasks.waitables t h = some (c.world p).addr := hentry
  cases hi.ops p with
  | fresh s _ hf => exact absurd hat (hf.nowhere t h)
  | settled hover => exact absurd hat (hover.nowhere t h)
  | inFlight ip h' hflight =>
    rcases hflight.place with ⟨t', hwait, -⟩ | ⟨hn, -⟩
    · obtain ⟨rfl, rfl⟩ := hwait.1.unique hat
      exact ⟨⟨ip, hflight.state, hflight.waitable⟩,
        hwait.2.resolve_left fun hnone => hi.held p hnone t h hat⟩
    · exact absurd hat (hn t h)

@[simp] theorem put_world_self (w : World (S p)) (haddr : w.addr = p) : (c.put p w).world p = w := by
  obtain ⟨self, addr, tasks, calls, dropped⟩ := w
  change addr = p at haddr
  subst haddr
  simp only [world, put, Function.update_self]

theorem put_world_of_ne (w : World (S p)) (hne : q ≠ p) : (c.put p w).world q = (c.world q).setTasks w.tasks := by
  simp only [world, put, Function.update_of_ne hne, World.setTasks]

theorem setTasks_held {S : WaitableOp} {w : World S} {ts : Tasks} (hw : w.Held) (hu : w.Untouched ts) :
    (w.setTasks ts).Held := fun hnone t h heq => hw hnone t h ((hu.1 t h).mp heq)

/-- No wakeup stream and no other operation has the waitable. -/
def Free (c : Component S) (p : Ptr) (h : Waitable) : Prop := c.NoStream h ∧ ∀ q, q ≠ p → ¬(c.world q).Ours h

theorem Inv.free (hi : c.Inv) (hours : (c.world p).Ours h) : c.Free p h :=
  ⟨hi.apart p h hours, fun q hne hq => hne (hi.distinct q p h hq hours)⟩

/-- A step of one operation that leaves every other one alone. -/
theorem Inv.put (hi : c.Inv) {w : World (S p)} (haddr : w.addr = p) (hw : w.Inv) (hheld : w.Held)
    (hours : ∀ h, w.Ours h → c.Free p h)
    (hother : ∀ q, q ≠ p → (c.world q).Untouched w.tasks)
    (hlinked : ∀ h, c.NoStream h → w.tasks.LinkedAt h)
    (hstream : ∀ t h, (c.executor.task t).stream = some h → c.executor.maps.SameAt w.tasks h) : (c.put p w).Inv := by
  have hcases : ∀ {P : (q : Ptr) → World (S q) → Prop}, P p w →
      (∀ q, q ≠ p → P q ((c.world q).setTasks w.tasks)) → ∀ q, P q ((c.put p w).world q) := by
    intro P hp hq q
    by_cases heq : q = p
    · subst heq
      rw [put_world_self w haddr]
      exact hp
    · rw [put_world_of_ne w heq]
      exact hq q heq
  refine ⟨?_, ?_, ?_, hlinked, fun t h hs t' => ((hstream t h hs).1 t').trans (hi.stream t h hs t'), ?_, ?_⟩
  · exact hi.executor.exec (e := .edit w.tasks) (fun t h hs => (hstream t h hs).2) rfl
  · exact hcases (P := fun _ w => w.Inv) hw fun q hq => World.other_spec (hi.ops q) (hother q hq)
  · exact hcases (P := fun _ w => w.Held) hheld fun q hq => setTasks_held (hi.held q) (hother q hq)
  · intro q q' h hq hq'
    by_cases heq : q = p <;> by_cases heq' : q' = p
    · exact heq.trans heq'.symm
    · subst heq
      rw [put_world_self w haddr] at hq
      rw [put_world_of_ne w heq'] at hq'
      exact absurd hq' ((hours h hq).2 q' heq')
    · subst heq'
      rw [put_world_self w haddr] at hq'
      rw [put_world_of_ne w heq] at hq
      exact absurd hq ((hours h hq').2 q heq)
    · rw [put_world_of_ne w heq] at hq
      rw [put_world_of_ne w heq'] at hq'
      exact hi.distinct q q' h hq hq'
  · exact hcases (P := fun _ w => ∀ h, w.Ours h → c.NoStream h) (fun h hh => (hours h hh).1) fun q _ => hi.apart q

/-! ## Calls of an operation -/

/-- What a call changes is under a waitable no other operation waits for. -/
theorem Inv.settles (hi : c.Inv) {w : World (S p)} {names : Waitable → Prop} (hw : w.Inv)
    (hs : (c.world p).Settles w names) (hnamed : ∀ h, names h → c.Free p h) : (c.put p w).Inv := by
  rcases hs.tasks with htasks | ⟨h, hshift⟩
  · have hsame : w.tasks = c.executor.maps := htasks
    refine hi.put hs.addr hw hs.held (fun h hh => hnamed h (hs.ours h hh)) (fun q _ => ?_) (fun h hno => ?_)
      fun t h _ => ?_
    · rw [hsame]
      exact ⟨fun _ _ => Iff.rfl, fun _ _ _ _ => ⟨fun _ => rfl, rfl⟩⟩
    · rw [hsame]
      exact hi.linked h hno
    · rw [hsame]
      exact ⟨fun _ => rfl, rfl⟩
  · obtain ⟨hnostream, hothers⟩ := hnamed h hshift.named
    refine hi.put hs.addr hw hs.held (fun h' hh => hnamed h' (hs.ours h' hh)) (fun q hne => ⟨fun t h' => ?_, ?_⟩)
      (fun h' hno => ?_) fun t h' hh' => hshift.other h' ?_
    · by_cases heq : h' = h
      · subst heq
        refine iff_of_false (fun hat => hne ?_) fun hat => hothers q hne (hi.entry hat).1
        exact hshift.reserved t q hat
      · rw [(hshift.other h' heq).1 t]
        rfl
    · intro ip h' hstate hwait
      refine hshift.other h' ?_
      rintro rfl
      exact hothers q hne ⟨ip, hstate, hwait⟩
    · by_cases heq : h' = h
      · exact heq ▸ hshift.linked
      · exact (hshift.other h' heq).linked (hi.linked h' hno)
    · rintro rfl
      exact hnostream t hh'

theorem Inv.confined (hi : c.Inv) (current : Option Wasip3Task) (answer : Code) :
    (c.world p).Confined (.cancel current answer) := fun hnone t h heq =>
  absurd heq (hi.held p hnone t h)

theorem Inv.op (C : (p : Ptr) → (S p).Contract) (hi : c.Inv) {e : Rt.Event} (hallowed : allowed C c (.op p e))
    {w : World (S p)} (hok : (c.world p).exec e = .ok w) : (c.put p w).Inv := by
  obtain ⟨hops, henv⟩ := hallowed
  cases e with
  | poll cx task answer =>
    obtain ⟨hversion, -, -, hfresh⟩ := henv
    have hconf : (c.world p).Confined (.poll cx task answer) :=
      ⟨fun _ => hversion ▸ Nat.le_refl _, fun hnone t h heq => absurd heq (hi.held p hnone t h)⟩
    have hw := (World.exec_spec (C p) (hi.ops p) hops hconf).of_ok hok
    cases hrun : (c.world p).pollComplete ⟨cx, some task⟩ answer with
    | error m =>
      rw [World.exec, hrun] at hok
      cases hok
    | ok r =>
      rw [World.exec, hrun] at hok
      cases hok
      refine hi.settles hw (World.poll_settles (C p) (hi.ops p) hops hconf (hversion ▸ Nat.le_refl _) hrun)
        fun h hh => ?_
      rcases hh with hours | hstarts
      · exact hi.free hours
      · exact ⟨(hfresh h hstarts).1, fun q _ => (hfresh h hstarts).2 q⟩
  | cancel current answer =>
    have hw := (World.exec_spec (C p) (hi.ops p) hops (hi.confined current answer)).of_ok hok
    cases hrun : (c.world p).cancel current answer with
    | error m =>
      rw [World.exec, hrun] at hok
      cases hok
    | ok r =>
      rw [World.exec, hrun] at hok
      cases hok
      exact hi.settles hw (World.cancel_settles (C p) (hi.ops p) hops (hi.confined current answer) hrun).1 fun h => hi.free
  | drop current answer =>
    have hw := (World.exec_spec (C p) (hi.ops p) hops (hi.confined current answer)).of_ok hok
    exact hi.settles hw (World.drop_settles (C p) (hi.ops p) hops (hi.confined current answer) hok) fun h => hi.free
  | deliver t h code => exact henv.elim
  | other ts => exact henv.elim

/-! ## Steps of the executor -/

/-- Other operations are untouched by a step that is quiet. -/
theorem Inv.quiet (hi : c.Inv) {s : Executor.State} (handle : Option Waitable) (hs : s.Inv)
    (hq : c.executor.Quiet s handle) (hfree : ∀ h ∈ handle, (∀ p, ¬(c.world p).Ours h) ∧ c.executor.Fresh h) :
    (c.setExecutor s).Inv := by
  have hapart : ∀ p h, (c.world p).Ours h → (c.setExecutor s).NoStream h := fun p h hh t ht =>
    (hq.stream t h ht).elim (hi.apart p h hh t) fun hn => (hfree h hn).1 p hh
  have huntouched : ∀ p, (c.world p).Untouched s.maps := fun p => by
    refine ⟨fun t h => ?_, fun ip h hstate hwait => ⟨fun t => ?_, ?_⟩⟩
    · rw [hq.waitables]
      rfl
    · rw [hq.waitables]
      rfl
    · have hours : (c.world p).Ours h := ⟨ip, hstate, hwait⟩
      exact hq.joined h (hi.apart p h hours) (hapart p h hours)
  refine ⟨hs, fun p => World.other_spec (hi.ops p) (huntouched p), fun p => setTasks_held (hi.held p) (huntouched p),
    fun h hno t => ?_, fun t h ht t' => ?_, hi.distinct, hapart⟩
  · change s.maps.joined h = some t ↔ (s.maps.waitables t h).isSome
    rw [hq.waitables]
    by_cases hold : c.NoStream h
    · rw [hq.joined h hold hno]
      exact hi.linked h hold t
    · obtain ⟨t', ht'⟩ := not_forall_not.mp hold
      rw [hq.gone t' h ht' hno, hi.stream t' h ht']
      exact iff_of_false nofun nofun
  · change s.maps.waitables t' h = none
    rw [hq.waitables]
    rcases hq.stream t h ht with hold | hnew
    · exact hi.stream t h hold t'
    · exact (hfree h hnew).2.2.2 t'

theorem cabiWake_ok {S : WaitableOp} {w w' : World S} {code : Code} (hok : w.cabiWake code = .ok w') :
    w'.tasks = w.tasks ∧ w'.addr = w.addr ∧ w'.self.task = w.self.task ∧ ∀ h, w'.Ours h ↔ w.Ours h := by
  rw [World.cabiWake] at hok
  split at hok
  · cases hok
    exact ⟨rfl, rfl, rfl, fun _ => Iff.rfl⟩
  · cases hok

/-- The operation is called back, after its entry was taken out. -/
theorem Inv.wakes (hi : c.Inv) (hentry : c.executor.maps.waitables t h = some p) {code : Code} {w : World (S p)}
    (hok : ((c.world p).setTasks (c.executor.maps.waitableUnregister t h).2).cabiWake code = .ok w) :
    (c.put p w).Inv := by
  obtain ⟨hours, -⟩ := hi.entry hentry
  obtain ⟨htasks, haddr, -, hsame⟩ := cabiWake_ok hok
  have htasks' : w.tasks = (c.executor.maps.waitableUnregister t h).2 := htasks
  have hfree := hi.free hours
  have hdeliver : (c.world p).deliverWaitableEvent t h code = .ok w := by
    have hfst : ((c.world p).tasks.waitableUnregister t h).1 = some p := hentry
    rw [World.deliverWaitableEvent]
    simp only [hfst]
    rw [← hok]
    exact if_pos rfl
  have hw : w.Inv := (World.deliver_spec (hi.ops p) (Option.isSome_iff_exists.mpr ⟨p, hentry⟩)).of_ok hdeliver
  have hnowhere : w.tasks.Nowhere p := by
    rw [htasks']
    have hat : (c.world p).tasks.waitables t h = some (c.world p).addr := hentry
    cases hi.ops p with
    | fresh s _ hf => exact absurd hat (hf.nowhere t h)
    | settled hover => exact absurd hat (hover.nowhere t h)
    | inFlight ip h' hflight =>
      rcases hflight.place with ⟨t', hwait, -⟩ | ⟨hn, -⟩
      · obtain ⟨rfl, rfl⟩ := hwait.1.unique hat
        exact hwait.1.unregister
      · exact absurd hat (hn t h)
  have hother : ∀ h', h' ≠ h → c.executor.maps.SameAt w.tasks h' := fun h' hne => by
    rw [htasks']
    exact Tasks.unregister_sameAt hne
  have hwaddr : w.addr = p := haddr
  refine hi.put hwaddr hw (fun _ => ?_) (fun h' hh => hi.free ((hsame h').mp hh)) (fun q hne => ⟨fun t' h' => ?_, ?_⟩)
    (fun h' hno => ?_) fun t' h' hs => hother h' ?_
  · rw [hwaddr]
    exact hnowhere
  · change w.tasks.waitables t' h' = some q ↔ c.executor.maps.waitables t' h' = some q
    rw [htasks', Tasks.unregister_waitables]
    split
    · rename_i heq
      obtain ⟨rfl, rfl⟩ := heq
      refine iff_of_false (by simp) fun hat => hne ?_
      exact Option.some.inj (hat.symm.trans hentry)
    · exact Iff.rfl
  · intro ip h' hstate hwait
    refine hother h' ?_
    rintro rfl
    exact hfree.2 q hne ⟨ip, hstate, hwait⟩
  · by_cases heq : h' = h
    · subst heq
      have hjoined : c.executor.maps.joined h' = some t :=
        (hi.linked h' hno t).mpr (Option.isSome_iff_exists.mpr ⟨p, hentry⟩)
      intro t'
      rw [htasks', Tasks.unregister_waitables]
      have hgone : (c.executor.maps.waitableUnregister t h').2.joined h' = none := Function.update_self ..
      rw [hgone]
      refine iff_of_false (by simp) fun hsome => ?_
      split at hsome
      · cases hsome
      · rename_i hne
        have hat := (hi.linked h' hno t').mpr hsome
        exact hne ⟨Option.some.inj (hat.symm.trans hjoined), rfl⟩
    · exact (hother h' heq).linked (hi.linked h' hno)
  · rintro rfl
    rw [hi.stream t' h' hs t] at hentry
    cases hentry

/-- The callback of an operation runs, and the others are untouched. -/
theorem Inv.delivers (hi : c.Inv) {s : Executor.State} (hs : s.Inv) (hd : c.executor.Delivers s t h p) {code : Code}
    {w : World (S p)} (hok : ((c.setExecutor s).world p).cabiWake code = .ok w) :
    ((c.setExecutor s).put p w).Inv := by
  have hmaps : w.tasks = s.maps := (cabiWake_ok hok).1
  have hput : (c.setExecutor s).put p w = (c.put p w).setExecutor s := by
    rw [Component.put, setExecutor, setExecutor, Component.put, hmaps]
  have hsame : ((c.setExecutor s).world p) = (c.world p).setTasks (c.executor.maps.waitableUnregister t h).2 := by
    rw [← hd.maps]
    rfl
  rw [hsame] at hok
  rw [hput]
  refine (hi.wakes hd.entry hok).quiet none hs (.of_same hd.streams ?_ fun _ _ => ?_) nofun
  · exact congrArg Tasks.waitables hmaps.symm
  · exact congrFun (congrArg Tasks.joined hmaps.symm) _

theorem Inv.task (C : (p : Ptr) → (S p).Contract) (hi : c.Inv) {e : Executor.Event} {code : Code}
    (hallowed : allowed C c (.task e code)) (hok : c.exec (.task e code) = .ok c') : c'.Inv := by
  obtain ⟨hexec, hedit, hhandle⟩ := hallowed
  rw [exec] at hok
  cases hrun : c.executor.exec e with
  | error m =>
    rw [hrun] at hok
    cases hok
  | ok r =>
    obtain ⟨out, s⟩ := r
    rw [hrun] at hok
    have hs : s.Inv := hi.executor.exec hexec hrun
    rcases Executor.State.exec_maps hi.executor hexec hedit hrun with ⟨rfl, hq⟩ | ⟨t, h, p, rfl, hd⟩
    · cases hok
      refine hi.quiet _ hs hq fun h hh => ⟨hhandle h hh, ?_⟩
      cases e <;> cases hh
      exact hexec.2.2.2
    · dsimp only at hok
      cases hw : ((c.setExecutor s).world p).cabiWake code with
      | error m =>
        rw [hw] at hok
        cases hok
      | ok w =>
        rw [hw] at hok
        cases hok
        exact hi.delivers hs hd hw

/-- A new operation comes in the place of one that is over. -/
theorem Inv.renew (hi : c.Inv) (hdone : (c.world p).self.isDone = true) (op : (S p).σ) (s : (S p).Start) :
    (c.put p { c.world p with self := .new op s, calls := [], dropped := false }).Inv := by
  obtain ⟨hover, -⟩ := (hi.ops p).of_isDone hdone
  refine hi.put rfl (.fresh s rfl ⟨hover.nowhere, rfl, rfl, rfl⟩ rfl) (fun _ => hover.nowhere) ?_
    (fun q _ => ⟨fun _ _ => Iff.rfl, fun _ _ _ _ => ⟨fun _ => rfl, rfl⟩⟩) hi.linked fun _ _ _ => ⟨fun _ => rfl, rfl⟩
  rintro h ⟨ip, hstate, -⟩
  cases hstate

theorem Inv.exec (C : (p : Ptr) → (S p).Contract) (hi : c.Inv) {e : Event S} (hallowed : allowed C c e)
    (hok : c.exec e = .ok c') : c'.Inv := by
  cases e with
  | task e code => exact hi.task C hallowed hok
  | op p e =>
    rw [Component.exec] at hok
    cases hw : (c.world p).exec e with
    | error m =>
      rw [hw] at hok
      cases hok
    | ok w =>
      rw [hw] at hok
      cases hok
      exact hi.op C hallowed hw
  | renew p op s =>
    cases hok
    exact hi.renew hallowed op s

theorem Inv.fresh (hfresh : c.fresh) : c.Inv := by
  obtain ⟨hexec, hslot⟩ := hfresh
  have hmaps : c.executor.maps = .none := by
    rw [hexec]
    rfl
  have hstream : ∀ t, (c.executor.task t).stream = none := fun t => by
    rw [hexec]
    rfl
  have hnew : ∀ p, ∃ s, (c.world p).self.state = .start s ∧ (c.world p).Fresh ∧ (c.world p).dropped = false := fun p => by
    obtain ⟨op, s, heq⟩ := hslot p
    refine ⟨s, ?_, ⟨?_, ?_, ?_, ?_⟩, ?_⟩
    · rw [world, heq]
      rfl
    · intro t h
      rw [world, hmaps]
      nofun
    · rw [world, heq]
      rfl
    · rw [world, heq]
      rfl
    · rw [world, heq]
    · rw [world, heq]
  have hnot : ∀ p h, ¬(c.world p).Ours h := fun p h ⟨ip, hstate, _⟩ => by
    obtain ⟨s, hs, -⟩ := hnew p
    rw [hs] at hstate
    cases hstate
  refine ⟨hexec ▸ .fresh, fun p => ?_, fun p _ => ?_, fun h _ t => ?_, fun t h hs => ?_, fun p _ h hh => ?_,
    fun p h hh => ?_⟩
  · obtain ⟨s, hs, hf, hd⟩ := hnew p
    exact .fresh s hs hf hd
  · obtain ⟨s, -, hf, -⟩ := hnew p
    exact hf.nowhere
  · rw [hmaps]
    exact iff_of_false nofun nofun
  · rw [hstream t] at hs
    cases hs
  · exact absurd hh (hnot p h)
  · exact absurd hh (hnot p h)

theorem Inv.of_reachable (C : (p : Ptr) → (S p).Contract) (h : (system C).Reachable c) : c.Inv :=
  h.invariant (fun _ hf => .fresh hf) fun _ _ _ hi ha he => hi.exec C ha he

/-! ## Membership -/

/-- Nothing but the wakers of its users has the state of the task: the task itself and
every clone that an operation had of it are gone. -/
def Released (c : Component S) (t : Ptr) : Prop :=
  (c.executor.task t).phase = .dropped ∧ ∀ p, ∀ clone ∈ (c.world p).self.task, clone.ptr ≠ t

variable {C : (p : Ptr) → (S p).Contract}

/-- In every run, the set of a task holds the waitables in its map and, while it is read,
its wakeup stream. An event of a waitable in the set finds its entry, and the set is
empty once the state of the task is dropped. -/
theorem membership (h : (system C).Reachable c) (t : Ptr) :
    (∀ h, c.executor.maps.joined h = some t ↔ (c.executor.maps.waitables t h).isSome ∨
      (c.executor.task t).stream = some h ∧ (c.executor.task t).streamReading = true) ∧
    ((c.executor.task t).streamReading = true ↔
      (c.executor.task t).copy = .reading ∨ (c.executor.task t).copy = .completed) ∧
    (∀ h, c.executor.maps.joined h = some t → ∃ r, c.executor.deliverWaitableEvent t h = .ok r) ∧
    (c.Released t → ∀ h, c.executor.maps.joined h ≠ some t) := by
  have hi := Inv.of_reachable C h
  have htask := hi.executor.tasks t
  have hmember : ∀ h, c.executor.maps.joined h = some t ↔ (c.executor.maps.waitables t h).isSome ∨
      (c.executor.task t).stream = some h ∧ (c.executor.task t).streamReading = true := by
    intro h
    by_cases hno : c.NoStream h
    · rw [hi.linked h hno t]
      exact ⟨Or.inl, fun hh => hh.resolve_right fun hs => hno t hs.1⟩
    · obtain ⟨t', ht'⟩ := not_forall_not.mp hno
      rw [hi.executor.joined t' h ht', hi.stream t' h ht' t]
      constructor
      · intro hjoined
        split at hjoined
        · cases hjoined
          exact Or.inr ⟨ht', ‹_›⟩
        · cases hjoined
      · rintro (hnone | ⟨hs, hread⟩)
        · cases hnone
        · obtain rfl := hi.executor.distinct t' t h ht' hs
          exact if_pos hread
  refine ⟨hmember, ⟨fun hread => ?_, fun hcopy => ?_⟩, fun h hjoined => ?_, fun hreleased h hjoined => ?_⟩
  · exact (htask.reading hread).2.2.2.imp And.left And.left
  · cases hread : (c.executor.task t).streamReading with
    | true => rfl
    | false =>
      obtain ⟨hr, hc⟩ := htask.idle hread
      exact absurd hcopy (not_or.mpr ⟨hr, hc⟩)
  · rw [Executor.State.deliverWaitableEvent]
    split
    · exact ⟨_, rfl⟩
    · rename_i hne
      obtain ⟨p, hp⟩ := Option.isSome_iff_exists.mp (((hmember h).mp hjoined).resolve_right fun hs => hne hs.1)
      have hfst : ((c.executor.join h none).maps.waitableUnregister t h).1 = some p := hp
      simp only [Tasks.waitableUnregister] at hfst ⊢
      rw [hfst]
      exact ⟨_, rfl⟩
  · obtain ⟨hphase, hclones⟩ := hreleased
    rcases (hmember h).mp hjoined with hsome | ⟨-, hread⟩
    · obtain ⟨p, hp⟩ := Option.isSome_iff_exists.mp hsome
      exact hclones p _ (hi.entry hp).2 rfl
    · rcases (htask.reading hread).2.2.1 with hp | hp <;> rw [hphase] at hp <;> cases hp

/-- Nothing has started in a component of calls of an import. -/
def idle : Component fun _ => wordImport.ops where
  executor := .fresh
  slot _ := ⟨.new [] (7 : Nat), [], false⟩

/-- A task polls a call, which waits in it. -/
theorem membership_waits : ∃ c : Component fun _ => wordImport.ops, c.executor.maps.joined 1 = some 0 ∧
    (c.executor.maps.waitables 0 1).isSome ∧ ∃ r, c.executor.deliverWaitableEvent 0 1 = .ok r := by
  have h₀ : (system fun _ => wordImport.contract).Reachable idle := .init _ ⟨rfl, fun _ => ⟨_, _, rfl⟩⟩
  have h₁ := h₀.step _ _ (Event.task (.start 0) 0) ⟨rfl, nofun, nofun⟩ rfl
  have h₂ := h₁.step _ _ (Event.task (.turn 0) 0) ⟨⟨false, rfl⟩, nofun, nofun⟩ rfl
  have h₃ := h₂.step _ _ (Event.op 7 (.poll 5 ⟨2, 0⟩ 0x11))
    ⟨⟨rfl, rfl, by decide, fun _ _ _ _ _ _ _ _ _ => rfl⟩, rfl, nofun, nofun, fun _ _ =>
      ⟨fun t => by rcases t with _ | t <;> nofun, fun _ ⟨_, hs, _⟩ => nomatch hs⟩⟩ rfl
  have hm := membership h₃ 0
  exact ⟨_, (hm.1 1).mpr (Or.inl rfl), rfl, hm.2.2.1 1 ((hm.1 1).mpr (Or.inl rfl))⟩

end Component

end Rt

end WitBindgen
