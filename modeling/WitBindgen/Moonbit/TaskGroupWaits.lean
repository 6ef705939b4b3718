import WitBindgen.Moonbit.TaskGroupChildren

/-!
# Waiting for a group

The parent of a group starts to wait for it, and goes on: when it is empty, or when it is
interrupted, and then it waits again, shielded. The operations of groups are made of these
and of what their children do.
-/

namespace WitBindgen

namespace Moonbit

namespace TaskGroup

variable {X : Type}

section
variable {s : Tasks X} {ending : Option CoroId} {open_ : Option GroupId} {c : CoroId} {g : GroupId}

/-! ## Waiting -/

theorem running_not_waits {s : Scheduler Waits} (hs : s.Inv) (hcurr : s.currCoro = some c) (g : GroupId) :
    ¬WaitsFor s g c := by
  have hrun := (hs.running c).mpr hcurr
  rintro (hw | hw) <;> rw [hrun] at hw <;> cases hw

/-- The parent of a group starts to wait for it. -/
theorem Tasks.Inv.wait (h : s.Inv none (some g)) (hcurr : s.sched.currCoro = some c) (hg : g < s.groupId)
    (hparent : (s.groups g).parent = c) (hne : (s.groups g).children ≠ []) (hready : (s.sched.coros c).ready = false)
    {k : Waits} (hk : k = .group g ∧ (s.sched.coros c).interrupted = false ∨
      k = .groupShielded g ∧ (s.sched.coros c).shielded = true) :
    ({ s with sched := s.sched.suspend c k } : Tasks X).Inv none none := by
  have hself : (s.sched.suspend c k).coros c = { s.sched.coros c with state := .suspend k } :=
    Function.update_self ..
  have hother : ∀ d, d ≠ c → (s.sched.suspend c k).coros d = s.sched.coros d := fun d hd =>
    Function.update_of_ne hd ..
  have hnowait := running_not_waits h.sched hcurr
  have hended : ∀ d, Ended (s.sched.suspend c k) d ↔ Ended s.sched d := fun d => by
    by_cases hd : d = c
    · subst hd
      rw [Ended, Ended, hself, (h.sched.running d).mpr hcurr]
      simp
    · rw [Ended, Ended, hother d hd]
  have hwaits : ∀ g' d, WaitsFor (s.sched.suspend c k) g' d → d = c ∧ g' = g ∨ d ≠ c ∧ WaitsFor s.sched g' d := by
    intro g' d hw
    by_cases hd : d = c
    · subst hd
      refine Or.inl ⟨rfl, ?_⟩
      rcases hk with ⟨rfl, -⟩ | ⟨rfl, -⟩ <;> rcases hw with hw | hw <;> rw [hself] at hw <;> cases hw <;> rfl
    · rw [WaitsFor, hother d hd] at hw
      exact Or.inr ⟨hd, hw⟩
  -- it waits with no cancellation to answer, or shielded from it
  have hquiet : (s.sched.coros c).interrupted = false := by
    rcases hk with ⟨-, hi⟩ | ⟨-, hs⟩
    · exact hi
    · rw [Coroutine.interrupted, hs]
      exact Bool.and_false _
  refine ⟨⟨h.shape.known, h.shape.unknown, h.shape.nodup, h.shape.waiting, h.shape.body, h.shape.running,
    h.shape.result, h.shape.done, h.shape.offered, h.shape.left, h.shape.noChildren, h.shape.calls, h.shape.calm⟩,
    h.sched.leave hcurr (by simp), h.spawned, h.parent, fun g' d => ?_, fun d y hy hb hcancelled => ?_,
    fun g' d hw => ?_, fun g' d hs => ?_, fun g' _ hne' => ?_⟩
  · refine (h.alive g' d).trans (and_congr_right fun _ => exists_congr fun y => ?_)
    rw [Tasks.Alive, Tasks.Alive]
    dsimp only
    rw [hended]
  · refine h.calm d y hy hb ?_
    by_cases hd : d = c
    · subst hd
      dsimp only at hcancelled
      rw [hself] at hcancelled
      exact hcancelled
    · dsimp only at hcancelled
      rwa [hother d hd] at hcancelled
  · rcases hwaits g' d hw with ⟨rfl, rfl⟩ | ⟨hd, hw'⟩
    · refine ⟨hg, hparent, ?_⟩
      dsimp only
      rw [hself]
      -- the group has children and the coroutine is not ready
      refine iff_of_false (by rw [hready]; simp) (not_or.mpr ⟨hne, ?_⟩)
      rw [Coroutine.interrupted] at hquiet ⊢
      rw [hquiet]
      simp
    · dsimp only
      rw [hother d hd]
      exact h.waits g' d hw'
  · dsimp only at hs ⊢
    by_cases hd : d = c
    · subst hd
      rw [hself] at hs ⊢
      rcases hk with ⟨rfl, -⟩ | ⟨-, hsh⟩
      · cases hs
      · exact hsh
    · rw [hother d hd] at hs ⊢
      exact h.shielded g' d hs
  · by_cases hgg : g' = g
    · subst hgg
      dsimp only
      rw [hparent, WaitsFor, hself]
      rcases hk with ⟨rfl, -⟩ | ⟨rfl, -⟩
      · exact Or.inl rfl
      · exact Or.inr rfl
    -- the parents of the other groups are suspended, so none of them is `c`
    · have hw := h.attended g' (fun heq => hgg (Option.some.inj heq).symm) hne'
      have hd : (s.groups g').parent ≠ c := fun heq => hnowait g' (heq ▸ hw)
      rw [WaitsFor]
      dsimp only
      rw [hother _ hd]
      exact hw

/-- The first of a queue is ready. -/
theorem first_ready {s : Scheduler Waits} (hs : s.Inv) {l : Lane} {rest : List CoroId}
    (hqueue : s.runLater l = c :: rest) : (s.coros c).ready = true :=
  ((hs.mem_iff l c).mp (hqueue ▸ List.mem_cons_self)).1

theorem reschedule_currCoro {s : Scheduler Waits} {l : Lane} {rest : List CoroId}
    (hqueue : s.runLater l = c :: rest) {k : Waits} (hk : (s.coros c).state = .suspend k) :
    (s.reschedule l).currCoro = some c := by
  rw [Scheduler.reschedule, hqueue]
  dsimp only
  simp only [Scheduler.set, Function.update_self, hk]

/-- The parent of a group goes on. -/
theorem Tasks.Inv.resume (h : s.Inv none none) (hcurr : s.sched.currCoro = none) {l : Lane} {rest : List CoroId}
    (hqueue : s.sched.runLater l = c :: rest) (hw : WaitsFor s.sched g c) :
    ({ s with sched := s.sched.reschedule l } : Tasks X).Inv none (some g) := by
  obtain ⟨k, hk⟩ : ∃ k, (s.sched.coros c).state = .suspend k := hw.elim (fun hk => ⟨_, hk⟩) fun hk => ⟨_, hk⟩
  have hself : (s.sched.reschedule l).coros c = { s.sched.coros c with ready := false, state := .running } := by
    rw [s.sched.reschedule_first hqueue, hk]
  have hother : ∀ d, d ≠ c → (s.sched.reschedule l).coros d = s.sched.coros d := fun d hd =>
    s.sched.reschedule_other hqueue hd
  have hwaits : ∀ g' d, WaitsFor (s.sched.reschedule l) g' d → d ≠ c ∧ WaitsFor s.sched g' d := by
    intro g' d hw'
    by_cases hd : d = c
    · subst hd
      rcases hw' with hw' | hw' <;> rw [hself] at hw' <;> cases hw'
    · rw [WaitsFor, hother d hd] at hw'
      exact ⟨hd, hw'⟩
  refine ⟨⟨h.shape.known, h.shape.unknown, h.shape.nodup, h.shape.waiting, h.shape.body, h.shape.running,
    h.shape.result, h.shape.done, h.shape.offered, h.shape.left, h.shape.noChildren, h.shape.calls, h.shape.calm⟩,
    h.sched.reschedule hcurr l, ?_, ?_, fun g' d => ?_, fun d y hy hb hcancelled => ?_,
    fun g' d hw' => ?_, fun g' d hs => ?_, fun g' hopen hne => ?_⟩
  · dsimp only
    rw [Scheduler.reschedule_coroId]
    exact h.spawned
  · dsimp only
    rw [Scheduler.reschedule_coroId]
    exact h.parent
  · refine (h.alive g' d).trans (and_congr_right fun _ => exists_congr fun y => ?_)
    rw [Tasks.Alive, Tasks.Alive, Ended, Ended]
    dsimp only
    by_cases hd : d = c
    · subst hd
      rw [hself, hk]
      simp
    · rw [hother d hd]
  · refine h.calm d y hy hb ?_
    dsimp only at hcancelled
    by_cases hd : d = c
    · subst hd
      rw [hself] at hcancelled
      exact hcancelled
    · rwa [hother d hd] at hcancelled
  · obtain ⟨hd, hw''⟩ := hwaits g' d hw'
    dsimp only
    rw [hother d hd]
    exact h.waits g' d hw''
  · have hd := (hwaits g' d (Or.inr hs)).1
    dsimp only at hs ⊢
    rw [hother d hd] at hs ⊢
    exact h.shielded g' d hs
  · have hw' := h.attended g' (by simp) hne
    -- it waited for one group only
    have hd : (s.groups g').parent ≠ c := by
      intro heq
      rw [heq] at hw'
      apply hopen
      rcases hw with hw | hw <;> rcases hw' with hq | hq <;> rw [hq] at hw <;> cases hw <;> rfl
    rw [WaitsFor]
    dsimp only
    rw [hother _ hd]
    exact hw'

/-- Any other turn changes nobody who waits for a group. -/
theorem reschedule_moves {s : Scheduler Waits} {l : Lane} {rest : List CoroId}
    (hqueue : s.runLater l = c :: rest) (hno : ∀ g, ¬WaitsFor s g c) : Moves [] s (s.reschedule l) := by
  refine .update (c := c) (x := (s.reschedule l).coros c) (funext fun d => ?_) (Nat.le_of_eq (by simp)) hno
    (fun g => ?_) (fun _ => ?_) (fun hc => Or.inl ?_)
  · by_cases hd : d = c
    · subst hd
      rw [Function.update_self]
    · rw [Function.update_of_ne hd, s.reschedule_other hqueue hd]
  · rw [s.reschedule_first hqueue]
    dsimp only
    split
    · exact ⟨nofun, nofun⟩
    · exact ⟨fun hs => hno g (Or.inl hs), fun hs => hno g (Or.inr hs)⟩
  · rw [s.reschedule_first hqueue, Ended]
    dsimp only
    split
    · rename_i k hk
      rw [hk]
      simp
    · rfl
  · rw [s.reschedule_first hqueue] at hc
    exact hc

theorem shield_moves {s : Scheduler Waits} (hno : ∀ g, ¬WaitsFor s g c) (shielded : Bool) :
    Moves [] s (s.shield c shielded) :=
  .update (x := { s.coros c with shielded }) rfl (Nat.le_refl _) hno
    (fun g => ⟨fun hs => hno g (Or.inl hs), fun hs => hno g (Or.inr hs)⟩) (fun _ => Iff.rfl) Or.inl

theorem shield_inv {s : Scheduler Waits} (hs : s.Inv) (c : CoroId) (shielded : Bool) : (s.shield c shielded).Inv :=
  hs.set rfl rfl rfl

/-! ## The operations -/

theorem Tasks.Inv.terminated_panic (h : s.Inv ending open_) : (s.panic .terminated).Inv ending open_ :=
  ⟨⟨h.shape.known, h.shape.unknown, h.shape.nodup, h.shape.waiting, h.shape.body, h.shape.running,
    h.shape.result, h.shape.done, h.shape.offered, h.shape.left, h.shape.noChildren, h.shape.calls,
    fun _ hp => (Option.some.inj hp).symm⟩,
    h.sched, h.spawned, h.parent, h.alive, h.calm, h.waits, h.shielded, h.attended⟩

/-- A running group has children. -/
theorem Tasks.Shape.children_ne (h : s.Shape) (hr : (s.groups g).state = .running) : (s.groups g).children ≠ [] := by
  intro hnil
  have hpos := h.running g hr
  rw [h.waiting, Tasks.awaited, hnil] at hpos
  exact Int.lt_irrefl _ hpos

theorem Tasks.Shape.phase_of_children (h : s.Shape) (hne : (s.groups g).children ≠ []) :
    (s.groups g).phase = .waiting := by
  by_contra hp
  exact hne (h.noChildren g hp)

/-- A call of `with_task_group` is in the defers of an empty group, or over. -/
theorem Tasks.Inv.calls (h : s.Inv ending open_) {calls : CoroId → List GroupId}
    (hcalls : ∀ c, ∀ g ∈ calls c, g < s.groupId ∧ (s.groups g).phase ≠ .waiting) :
    ({ s with calls } : Tasks X).Inv ending open_ :=
  ⟨⟨h.shape.known, h.shape.unknown, h.shape.nodup, h.shape.waiting, h.shape.body, h.shape.running,
    h.shape.result, h.shape.done, h.shape.offered, h.shape.left, h.shape.noChildren, hcalls, h.shape.calm⟩,
    h.sched, h.spawned, h.parent, h.alive, h.calm, h.waits, h.shielded, h.attended⟩

/-- A group past its wait has neither children nor the state `Running`, and a result
where it is `Done`: so `nextDefer` finds what it needs. -/
theorem Tasks.Inv.nextDefer (h : s.Inv none open_) (hg : g < s.groupId) (hp : (s.groups g).phase ≠ .waiting) :
    (s.nextDefer c g).Inv none open_ := by
  have hnil := h.shape.noChildren g hp
  have hnot : (s.groups g).state ≠ .running := fun hr => h.shape.children_ne hr hnil
  have hcalls : ∀ d, ∀ g' ∈ Function.update s.calls c (s.calls c).tail d,
      g' < s.groupId ∧ (s.groups g').phase ≠ .waiting := by
    intro d g' hmem
    by_cases hd : d = c
    · subst hd
      rw [Function.update_self] at hmem
      exact h.shape.calls d g' (List.mem_of_mem_tail hmem)
    · rw [Function.update_of_ne hd] at hmem
      exact h.shape.calls d g' hmem
  rw [Tasks.nextDefer]
  dsimp only
  split
  · exact h.setGroup hg rfl rfl rfl id id (h.shape.done g hg) (h.shape.offered g) id (fun _ => hnil)
      (h.shape.left g)
  -- no defer is left: the call returns the result or raises
  · have h' := h.calls hcalls
    split
    · rename_i hd
      split
      · rename_i value hv
        refine h'.setGroup hg rfl rfl rfl id id (h.shape.done g hg) (h.shape.offered g) (fun _ => nofun)
          (fun _ => hnil) fun value' hv' => ?_
        cases hv'
        exact h.shape.offered g value hv
      · rename_i hv
        exact absurd hv (h.shape.done g hg hd)
    · exact h'.setGroup hg rfl rfl rfl id id (h.shape.done g hg) (h.shape.offered g) (fun _ => nofun)
        (fun _ => hnil) nofun
    · rename_i hr
      exact absurd hr hnot

/-- The wait is over once the group is empty. -/
theorem Tasks.Inv.waited (h : s.Inv none open_) (hg : g < s.groupId) (hnil : (s.groups g).children = []) :
    (s.waited c g).Inv none open_ := by
  have hset : (s.setGroup g { s.groups g with phase := .defers }).Inv none open_ :=
    h.setGroup hg rfl rfl rfl id id (h.shape.done g hg) (h.shape.offered g) (fun _ => nofun) (fun _ => hnil) nofun
  have hphase : ((s.setGroup g { s.groups g with phase := .defers }).groups g).phase ≠ .waiting := by
    rw [Tasks.setGroup_self]
    nofun
  rw [Tasks.waited, if_pos hnil]
  refine (hset.calls fun d g' hmem => ?_).nextDefer hg hphase
  by_cases hd : d = c
  · subst hd
    rw [Function.update_self] at hmem
    rcases List.mem_cons.mp hmem with rfl | hmem
    · exact ⟨hg, hphase⟩
    · exact hset.shape.calls d g' hmem
  · rw [Function.update_of_ne hd] at hmem
    exact hset.shape.calls d g' hmem

/-- The children of a group that does not run may be cancelled. -/
theorem Tasks.Inv.cancelChildren (h : s.Inv none open_) (hstate : (s.groups g).state ≠ .running)
    (children : List CoroId) (hsub : children ⊆ (s.groups g).children) :
    ({ s with sched := cancelAll children s.sched } : Tasks X).Inv none open_ := by
  refine h.moves (cancelAll_moves children (List.Subset.refl _) s.sched) (cancelAll_inv h.sched children)
    fun d hd x hx _ => ?_
  obtain ⟨-, y, hy, hyg, -⟩ := (h.alive g d).mp (hsub hd)
  rw [hx] at hy
  cases hy
  exact hyg ▸ hstate

/-- The coroutine is interrupted while its group has children, or had. -/
theorem Tasks.Inv.interrupted (h : s.Inv none (some g)) (hcurr : s.sched.currCoro = some c) (hg : g < s.groupId)
    (hparent : (s.groups g).parent = c) (hready : (s.sched.coros c).ready = false) :
    (s.interrupted c g).Inv none none := by
  let tg : Group X := { s.groups g with state := if (s.groups g).state = .running then .fail else (s.groups g).state }
  have hnot : tg.state ≠ .running := by
    dsimp only [tg]
    split
    · nofun
    · assumption
  have hdone : tg.state = .done → tg.result ≠ none := by
    dsimp only [tg]
    split
    · nofun
    · exact h.shape.done g hg
  have hset : (s.setGroup g tg).Inv none (some g) :=
    h.setGroup hg rfl rfl rfl (fun hr => absurd hr hnot) id hdone (h.shape.offered g) id (h.shape.noChildren g)
      (h.shape.left g)
  have hself : (s.setGroup g tg).groups g = tg := s.setGroup_self g tg
  rw [Tasks.interrupted]
  by_cases hnil : (s.groups g).children = []
  · rw [if_pos hnil]
    have hnil' : ((s.setGroup g tg).groups g).children = [] := by
      rw [hself]
      exact hnil
    exact (hset.of_children hnil').waited hg hnil'
  · rw [if_neg hnil]
    have hcancel := hset.cancelChildren (g := g) (by rw [hself]; exact hnot)
      (s.groups g).children (by rw [hself]; exact List.Subset.refl _)
    -- the parent itself is not cancelled with the children, and waits for them under a shield
    have hnotchild : c ∉ (s.groups g).children := hparent ▸ h.parent_not_child
    have hno : ∀ g', ¬WaitsFor (cancelAll (s.groups g).children s.sched) g' c :=
      running_not_waits hcancel.sched ((cancelAll_currCoro _ _).trans hcurr)
    have hshield := hcancel.moves (shield_moves hno true) (shield_inv hcancel.sched c true) nofun
    refine hshield.wait ((cancelAll_currCoro _ _).trans hcurr) hg ?_ ?_ ?_ (Or.inr ⟨rfl, ?_⟩)
    · dsimp only
      rw [hself]
      exact hparent
    · dsimp only
      rw [hself]
      exact hnil
    · simp only [Scheduler.shield, Scheduler.set, Function.update_self, cancelAll_other hnotchild]
      exact hready
    · simp only [Scheduler.shield, Scheduler.set, Function.update_self]

/-- A coroutine is spawned into a group that runs or has children. -/
theorem Tasks.Inv.spawnCoroutine (h : s.Inv none none) (hg : g < s.groupId) (noWait allowFailure : Bool) :
    (s.spawnCoroutine c ⟨g, noWait, allowFailure, false⟩).Inv none none := by
  rw [Tasks.spawnCoroutine]
  dsimp only
  split
  · rename_i hguard
    have hne : (s.groups g).children ≠ [] := hguard.elim h.shape.children_ne id
    have hadd : ({ s.setGroup g { s.groups g with
          children := (s.groups g).children ++ [s.sched.coroId]
          waiting := if noWait then (s.groups g).waiting else (s.groups g).waiting + 1 } with
        sched := s.sched.spawnOwned (s.sched.coros c).lane .start
        child := Function.update s.child s.sched.coroId (some ⟨g, noWait, allowFailure, false⟩) } : Tasks X).Inv
          none none := by
      have hself : Function.update s.groups g { s.groups g with
          children := (s.groups g).children ++ [s.sched.coroId]
          waiting := if noWait then (s.groups g).waiting else (s.groups g).waiting + 1 } g = _ :=
        Function.update_self ..
      refine h.addChild (x := ⟨g, noWait, allowFailure, false⟩) ⟨rfl, rfl,
        fun g' hgg => Function.update_of_ne hgg .., rfl, rfl, Nat.le_refl _, hg,
        fun g' hg' _ => hg', ?_, ?_, ?_, ?_, ?_, ?_, nofun, Or.inl ⟨hg, hne, ?_, h.shape.phase_of_children hne, ?_⟩⟩
      all_goals
        dsimp only [Tasks.setGroup]
        rw [hself]
      · exact h.parent g hg
      · exact h.shape.phase_of_children hne
      · exact h.shape.done g hg
      · exact h.shape.offered g
      · exact fun hr => ⟨hr, id⟩
    -- a group that does not run any more cancels the child at once
    by_cases hr : (s.groups g).state = .running
    · rw [if_pos hr]
      exact hadd
    · rw [if_neg hr]
      refine hadd.moves (Moves.cancel _ List.mem_cons_self : Moves [s.sched.coroId] _ _) hadd.sched.cancel
        fun d hd x hx hb => ?_
      obtain rfl := List.mem_singleton.mp hd
      dsimp only at hx
      rw [Function.update_self] at hx
      cases hx
      cases hb
  · exact h.terminated_panic

/-- A new group with its body, whose parent does not wait yet. -/
def Tasks.opened (s : Tasks X) (c : CoroId) : Tasks X :=
  { s with
    groups := Function.update s.groups s.groupId ⟨[s.sched.coroId], c, 1, .running, none, 0, .waiting, []⟩
    groupId := s.groupId + 1
    sched := s.sched.spawnOwned (s.sched.coros c).lane .start
    child := Function.update s.child s.sched.coroId (some ⟨s.groupId, false, false, true⟩) }

theorem Tasks.withTaskGroup_eq (s : Tasks X) (c : CoroId) : s.withTaskGroup c =
    if ((s.opened c).sched.coros c).interrupted then (s.opened c).interrupted c s.groupId
    else { s.opened c with sched := (s.opened c).sched.suspend c (.group s.groupId) } := by
  have hspawn : ({ s.setGroup s.groupId ⟨[], c, 0, .running, none, 0, .waiting, []⟩ with
      groupId := s.groupId + 1 } : Tasks X).spawnCoroutine c ⟨s.groupId, false, false, true⟩ = s.opened c := by
    simp [Tasks.spawnCoroutine, Tasks.setGroup, Tasks.opened]
  rw [Tasks.withTaskGroup, hspawn]

theorem Tasks.Inv.opened (h : s.Inv none none) (hc : c < s.sched.coroId) :
    (s.opened c).Inv none (some s.groupId) := by
  have h' : s.Inv none (some s.groupId) := { h with attended := fun g _ => h.attended g nofun }
  obtain ⟨hnil, hzero, -, -⟩ := h.shape.unknown s.groupId (Nat.le_refl _)
  have hself : (s.opened c).groups s.groupId = ⟨[s.sched.coroId], c, 1, .running, none, 0, .waiting, []⟩ :=
    Function.update_self ..
  refine h'.addChild (x := ⟨s.groupId, false, false, true⟩) ⟨rfl, rfl, fun g hg => Function.update_of_ne hg .., rfl,
    rfl, Nat.le_succ _, Nat.lt_succ_self _, fun g hg hne => ?_, ?_, ?_, ?_, ?_, ?_, ?_, fun _ => ⟨rfl, rfl⟩,
    Or.inr ⟨Nat.le_refl _, rfl, rfl⟩⟩
  · exact Nat.lt_of_le_of_ne (Nat.le_of_lt_succ hg) hne
  · rw [hself, hnil]
    rfl
  · rw [hself, hzero]
    rfl
  · rw [hself]
    exact hc
  · rw [hself]
  · rw [hself]
    nofun
  · rw [hself]
    nofun

/-- `with_task_group` starts to wait. -/
theorem Tasks.Inv.withTaskGroup (h : s.Inv none none) (hcurr : s.sched.currCoro = some c)
    (hready : (s.sched.coros c).ready = false) : (s.withTaskGroup c).Inv none none := by
  have hc : c < s.sched.coroId := h.sched.spawned fun hd => by
    rw [(h.sched.running c).mpr hcurr] at hd
    cases hd
  have hopened := h.opened hc
  have hself : (s.opened c).groups s.groupId = ⟨[s.sched.coroId], c, 1, .running, none, 0, .waiting, []⟩ :=
    Function.update_self ..
  have hready' : ((s.opened c).sched.coros c).ready = false := by
    rw [Tasks.opened]
    dsimp only
    rw [spawnOwned_coros, Function.update_of_ne (Nat.ne_of_lt hc)]
    exact hready
  have hlt : s.groupId < (s.opened c).groupId := Nat.lt_succ_self _
  rw [Tasks.withTaskGroup_eq]
  split
  · exact hopened.interrupted hcurr hlt (by rw [hself]) hready'
  · rename_i hi
    exact hopened.wait hcurr hlt (by rw [hself]) (by rw [hself]; nofun) hready'
      (Or.inl ⟨rfl, Bool.not_eq_true _ ▸ hi⟩)

/-- The group fails with the error of a child, unless it has failed already. -/
theorem Tasks.Inv.failGroup (h : s.Inv none none) (hg : g < s.groupId) : (s.failGroup g).Inv none none := by
  have hset : (s.setGroup g { s.groups g with state := .fail }).Inv none none :=
    h.setGroup hg rfl rfl rfl nofun id nofun (h.shape.offered g) id (h.shape.noChildren g) (h.shape.left g)
  rw [Tasks.failGroup]
  split
  · exact hset.cancelChildren (g := g) (by rw [Tasks.setGroup_self]; nofun)
      (s.groups g).children (by rw [Tasks.setGroup_self]; exact List.Subset.refl _)
  · exact hset

/-- After the function of a child, its group still counts it; and where the child is
the body, the group has a result or does not run. -/
theorem Tasks.Inv.caught (h : s.Inv none none) {x : Child} (hx : s.child c = some x) {e : Ending X}
    (hends : s.Ends c e) : (s.caught c x e).Inv none none ∧ (s.caught c x e).child = s.child ∧
      (s.caught c x e).sched.currCoro = s.sched.currCoro ∧ (s.caught c x e).groupId = s.groupId ∧
      ((s.caught c x e).groups x.group).children = (s.groups x.group).children ∧
      (((s.caught c x e).groups x.group).state = .running → x.isBody = true →
        ((s.caught c x e).groups x.group).result ≠ none) := by
  have hg := (h.shape.known c x hx).1
  have hfail : (s.failGroup x.group).Inv none none ∧ (s.failGroup x.group).child = s.child ∧
      (s.failGroup x.group).sched.currCoro = s.sched.currCoro ∧ (s.failGroup x.group).groupId = s.groupId ∧
      ((s.failGroup x.group).groups x.group).children = (s.groups x.group).children ∧
      (((s.failGroup x.group).groups x.group).state = .running → x.isBody = true →
        ((s.failGroup x.group).groups x.group).result ≠ none) := by
    refine ⟨h.failGroup hg, ?_⟩
    rw [Tasks.failGroup]
    split
    · exact ⟨rfl, cancelAll_currCoro _ _, rfl, by simp, by simp⟩
    · exact ⟨rfl, rfl, rfl, by simp, by simp⟩
  -- where the group stays as it is, the child is no body, or the group does not run
  have hskip : (x.isBody = true → (s.groups x.group).state ≠ .running) → s.Inv none none ∧ s.child = s.child ∧
      s.sched.currCoro = s.sched.currCoro ∧ s.groupId = s.groupId ∧
      (s.groups x.group).children = (s.groups x.group).children ∧
      ((s.groups x.group).state = .running → x.isBody = true → (s.groups x.group).result ≠ none) := fun hbody =>
    ⟨h, rfl, rfl, rfl, rfl, fun hr hb => absurd hr (hbody hb)⟩
  cases e with
  | body value =>
    rw [Tasks.caught]
    have hresult : (if (s.groups x.group).result.isNone then some value else (s.groups x.group).result) ≠ none := by
      cases hr : (s.groups x.group).result <;> simp
    refine ⟨h.setGroup hg rfl rfl rfl id (fun _ => hresult) (fun _ => hresult) (fun v hv => ?_) id
      (h.shape.noChildren _) (fun v hv => List.mem_append_left _ (h.shape.left _ v hv)), rfl, rfl, rfl, by simp,
      fun _ _ => by rw [Tasks.setGroup_self]; exact hresult⟩
    dsimp only at hv ⊢
    cases hr : (s.groups x.group).result with
    | none =>
      rw [hr] at hv
      cases hv
      exact List.mem_append_right _ List.mem_cons_self
    | some v' =>
      rw [hr] at hv
      cases hv
      exact List.mem_append_left _ (h.shape.offered _ v hr)
  | normal =>
    rw [Tasks.caught]
    exact hskip fun hb => absurd (hends.2 x hx) (by rw [hb]; nofun)
  | failed =>
    rw [Tasks.caught]
    split
    · rename_i hallow
      exact hskip fun hb => absurd (h.shape.body c x hx hb).2 (by rw [hallow]; nofun)
    · exact hfail
  | cancelled =>
    rw [Tasks.caught]
    split
    · rename_i hallow
      refine hskip fun hb => ?_
      rw [(h.shape.body c x hx hb).2, Bool.false_or, Coroutine.interrupted, Bool.and_eq_true] at hallow
      -- a body is cancelled only once its group does not run
      exact h.calm c x hx hb hallow.1
    · exact hfail

/-- The last child that a running group waits for finds a result. -/
theorem Tasks.Inv.last_result (h : s.Inv ending open_) {x : Child} (hx : s.child c = some x)
    (hmem : c ∈ (s.groups x.group).children) (hw : x.noWait = false) (hr : (s.groups x.group).state = .running)
    (hlast : (s.groups x.group).waiting - 1 = 0) (hbody : x.isBody = true → (s.groups x.group).result ≠ none) :
    (s.groups x.group).result ≠ none := by
  rcases h.shape.result _ hr with ⟨d, y, hd, hy, hb⟩ | hres
  · by_cases hdc : d = c
    · subst hdc
      rw [hx] at hy
      cases hy
      exact hbody hb
    · -- the body is a second child that the group waits for
      have hc' : c ∈ s.awaited x.group := List.mem_filter.mpr ⟨hmem, by simp [hx, hw]⟩
      have hd' : d ∈ s.awaited x.group :=
        List.mem_filter.mpr ⟨hd, by simp [hy, (h.shape.body d y hy hb).1]⟩
      have hpos := List.length_pos_of_mem ((List.mem_erase_of_ne hdc).mpr hd')
      rw [List.length_erase_of_mem hc'] at hpos
      rw [h.shape.waiting] at hlast
      omega
  · exact hres

/-- The `defer` of `worker` takes the child out of its group. -/
theorem Tasks.Inv.terminated (h : s.Inv none none) {x : Child} (hx : s.child c = some x)
    (hmem : c ∈ (s.groups x.group).children)
    (hbody : (s.groups x.group).state = .running → x.isBody = true → (s.groups x.group).result ≠ none) :
    (s.terminated c x).Inv (some c) none ∧ (s.terminated c x).sched.currCoro = s.sched.currCoro := by
  have hg := (h.shape.known c x hx).1
  have hsub : (s.groups x.group).children.erase c ⊆ (s.groups x.group).children := List.erase_subset
  rw [Tasks.terminated]
  dsimp only
  by_cases hlast : (!x.noWait && decide ((if x.noWait = true then (s.groups x.group).waiting
      else (s.groups x.group).waiting - 1) = 0) && decide ((s.groups x.group).state = .running)) = true
  · obtain ⟨⟨hw, hzero⟩, hr⟩ : (x.noWait = false ∧ (if x.noWait = true then (s.groups x.group).waiting
        else (s.groups x.group).waiting - 1) = 0) ∧ (s.groups x.group).state = .running := by
      simpa only [Bool.and_eq_true, Bool.not_eq_true', decide_eq_true_eq] using hlast
    -- the group is done, and its result is there
    have hres : (s.groups x.group).result ≠ none :=
      h.last_result hx hmem hw hr (by rwa [hw, if_neg Bool.false_ne_true] at hzero) (hbody hr)
    have hset : (s.setGroup x.group { s.groups x.group with state := .done }).Inv none none :=
      h.setGroup hg rfl rfl rfl nofun id (fun _ => hres) (h.shape.offered _) id (h.shape.noChildren _) (h.shape.left _)
    have hcancel := hset.cancelChildren (g := x.group) (by rw [Tasks.setGroup_self]; nofun)
      ((s.groups x.group).children.erase c) (by rw [Tasks.setGroup_self]; exact hsub)
    have hgroup : (s.setGroup x.group { s.groups x.group with state := .done }).groups x.group =
        { s.groups x.group with state := .done } := s.setGroup_self _ _
    refine ⟨hcancel.eraseChild ⟨hx, (by dsimp only; rw [hgroup]; exact hmem), rfl, fun g hgg => ?_, rfl, rfl, rfl, ?_, ?_, ?_,
      ?_⟩, ?_⟩
    · dsimp only [Tasks.setGroup]
      rw [Function.update_of_ne hgg, Function.update_of_ne hgg]
    · rw [Tasks.setGroup_self]
      dsimp only
      rw [hgroup, if_pos hlast]
    · dsimp only
      rw [hgroup, if_pos hlast]
      rfl
    · dsimp only
      rw [hgroup]
      nofun
    · dsimp only
      rw [hgroup]
      nofun
    · rw [if_pos hlast]
      split <;> simp
  -- or something is still waited for
  · have hpos : (s.groups x.group).state = .running → 0 < (if x.noWait = true then (s.groups x.group).waiting
        else (s.groups x.group).waiting - 1) := by
      intro hr
      have hpos := h.shape.running _ hr
      cases hw : x.noWait with
      | true =>
        rw [if_pos rfl]
        exact hpos
      | false =>
        have hzero : ¬(s.groups x.group).waiting - 1 = 0 := fun hz => hlast (by simp [hw, hz, hr])
        rw [if_neg Bool.false_ne_true]
        omega
    refine ⟨h.eraseChild ⟨hx, hmem, rfl, fun g hgg => Function.update_of_ne hgg .., rfl, rfl, rfl, ?_, ?_, ?_, hbody⟩, ?_⟩
    · rw [Tasks.setGroup_self, if_neg hlast]
    · dsimp only
      rw [if_neg hlast]
    · intro hr
      rw [Tasks.setGroup_self]
      exact hpos hr
    · rw [if_neg hlast]
      split <;> simp

/-- The running coroutine ends. -/
theorem Tasks.Inv.finish (h : s.Inv none none) (hcurr : s.sched.currCoro = some c) {e : Ending X}
    (hends : s.Ends c e) : (s.finish c e).Inv none none := by
  have hstate : Ending.state e = .done ∨ Ending.state e = .fail := by
    cases e
    · exact Or.inl rfl
    · exact Or.inl rfl
    · exact Or.inr rfl
    · exact Or.inr rfl
  rw [Tasks.finish]
  cases hx : s.child c with
  | none => exact h.ends hcurr (Or.inr ⟨rfl, hx⟩) hstate
  | some x =>
    obtain ⟨hcaught, hchild, hcurr', -, hchildren, hbody⟩ := h.caught hx hends
    have hrun := (h.sched.running c).mpr hcurr
    have hmem : c ∈ (s.groups x.group).children :=
      (h.alive _ c).mpr ⟨nofun, x, hx, rfl, fun hend => by
        rcases hend with hend | hend <;> rw [hrun] at hend <;> cases hend⟩
    obtain ⟨hterm, hcurr''⟩ := hcaught.terminated (x := x) (by rw [hchild]; exact hx)
      (by rw [hchildren]; exact hmem) hbody
    exact hterm.ends (hcurr''.trans (hcurr'.trans hcurr)) (Or.inl rfl) hstate

theorem Tasks.Inv.returnImmediately (h : s.Inv none none) (hg : g < s.groupId) (value : X) :
    (s.returnImmediately g value).Inv none none := by
  have hresult : (if (s.groups g).result.isNone then some value else (s.groups g).result) ≠ none := by
    cases hr : (s.groups g).result <;> simp
  have hset : (s.setGroup g { s.groups g with
      result := if (s.groups g).result.isNone then some value else (s.groups g).result
      offered := (s.groups g).offered ++ [value]
      state := if (s.groups g).state = .running then .done else (s.groups g).state }).Inv none none := by
    refine h.setGroup hg rfl rfl rfl (fun hr => ?_) (fun _ => hresult) (fun _ => hresult) (fun v hv => ?_) id
      (h.shape.noChildren g) (fun v hv => List.mem_append_left _ (h.shape.left g v hv))
    · dsimp only at hr
      split at hr
      · cases hr
      · exact hr
    · dsimp only at hv ⊢
      cases hr : (s.groups g).result with
      | none =>
        rw [hr] at hv
        cases hv
        exact List.mem_append_right _ List.mem_cons_self
      | some v' =>
        rw [hr] at hv
        cases hv
        exact List.mem_append_left _ (h.shape.offered _ v hr)
  rw [Tasks.returnImmediately]
  by_cases hr : (s.groups g).state = .running
  · rw [if_pos hr]
    -- `Done` is set before the children are cancelled
    refine hset.cancelChildren (g := g) ?_ (s.groups g).children ?_
    · rw [Tasks.setGroup_self]
      dsimp only
      rw [if_pos hr]
      nofun
    · rw [Tasks.setGroup_self]
      exact List.Subset.refl _
  · rw [if_neg hr]
    exact hset

theorem Tasks.Inv.addDefer (h : s.Inv none none) (hg : g < s.groupId) : (s.addDefer g).Inv none none := by
  rw [Tasks.addDefer]
  split
  · exact h.setGroup hg rfl rfl rfl id id (h.shape.done g hg) (h.shape.offered g) id (h.shape.noChildren g)
      (h.shape.left g)
  · exact h.terminated_panic

theorem Tasks.Inv.endDefer (h : s.Inv none none) (failed : Bool) : (s.endDefer c failed).Inv none none := by
  rw [Tasks.endDefer]
  split
  · exact h
  · rename_i g rest hcalls
    obtain ⟨hg, hp⟩ := h.shape.calls c g (hcalls ▸ List.mem_cons_self)
    refine Tasks.Inv.nextDefer (h.setGroup hg rfl rfl rfl (fun hr => ?_) id (fun hd => ?_) (h.shape.offered g) id
      (h.shape.noChildren g) (h.shape.left g)) hg (by rw [Tasks.setGroup_self]; exact hp)
    · dsimp only at hr
      split at hr
      · cases hr
      · exact hr
    · dsimp only at hd ⊢
      split at hd
      · cases hd
      · exact h.shape.done g hg hd

/-- One turn: only a coroutine that waits for a group does something by itself, and
it finds the group empty unless it was interrupted. -/
theorem Tasks.Inv.turn (h : s.Inv none none) (hcurr : s.sched.currCoro = none) (l : Lane) :
    (s.turn l).Inv none none := by
  rw [Tasks.turn]
  split
  · exact h
  · rename_i c rest hqueue
    have hready := first_ready h.sched hqueue
    have hinv := h.sched.reschedule hcurr l
    have hother : (∀ g, ¬WaitsFor s.sched g c) → ({ s with sched := s.sched.reschedule l } : Tasks X).Inv none none :=
      fun hno => h.moves (reschedule_moves hqueue hno) hinv nofun
    dsimp only
    split
    · rename_i hk
      have hno : ∀ g, ¬WaitsFor s.sched g c := by rintro g (hw | hw) <;> rw [hk] at hw <;> cases hw
      have hrun := running_not_waits hinv (reschedule_currCoro hqueue hk)
      exact (hother hno).moves (shield_moves hrun false) (shield_inv hinv c false) nofun
    · rename_i g hk
      obtain ⟨hg, hparent, hiff⟩ := h.waits g c (Or.inl hk)
      have hresume := h.resume hcurr hqueue (Or.inl hk)
      have hcoro : ((s.sched.reschedule l).coros c).ready = false := by rw [s.sched.reschedule_first hqueue]
      have hint : ((s.sched.reschedule l).coros c).interrupted = (s.sched.coros c).interrupted := by
        rw [s.sched.reschedule_first hqueue]
        rfl
      split
      · exact hresume.interrupted (reschedule_currCoro hqueue hk) hg hparent hcoro
      · rename_i hi
        rw [hint] at hi
        have hnil := (hiff.mp hready).resolve_right hi
        exact (hresume.of_children hnil).waited hg hnil
    · rename_i g hk
      obtain ⟨hg, hparent, hiff⟩ := h.waits g c (Or.inr hk)
      have hresume := h.resume hcurr hqueue (Or.inr hk)
      have hi : (s.sched.coros c).interrupted ≠ true := by
        rw [Coroutine.interrupted, h.shielded g c hk]
        simp
      have hnil := (hiff.mp hready).resolve_right hi
      have hrun := running_not_waits hinv (reschedule_currCoro hqueue hk)
      have hshield := (hresume.of_children hnil).moves (shield_moves hrun false)
        (shield_inv hinv c false) nofun
      exact hshield.waited hg hnil
    · rename_i hstart hgroup hshielded
      exact hother fun g hw => hw.elim (hgroup g) (hshielded g)

end

end TaskGroup

end Moonbit

end WitBindgen
