import WitBindgen.Moonbit.TaskGroupInvariant

/-!
# The children of a group

A coroutine that is spawned joins its group, and one that ends leaves it. The last child
that the group waits for wakes the parent.
-/

namespace WitBindgen

namespace Moonbit

namespace TaskGroup

variable {X : Type}

section
variable {s : Tasks X} {ending : Option CoroId} {open_ : Option GroupId} {c : CoroId} {g : GroupId}

/-! ## Children come and go -/

theorem spawnOwned_coros (s : Scheduler Waits) (lane : Lane) (k : Waits) :
    (s.spawnOwned lane k).coros = Function.update s.coros s.coroId ⟨lane, .suspend k, true, false, true⟩ := rfl

theorem spawnOwned_moves (s : Scheduler Waits) (hs : s.Inv) (lane : Lane) :
    Moves [] s (s.spawnOwned lane .start) := by
  refine .update (spawnOwned_coros s lane .start) (Nat.le_succ _) (fun g hw => ?_) (fun g => ⟨nofun, nofun⟩)
    (fun hlt => absurd hlt (Nat.lt_irrefl _)) nofun
  have hdone := (hs.fresh _ (Nat.le_refl _)).1
  rcases hw with hw | hw
  · rw [hdone] at hw
    cases hw
  · rw [hdone] at hw
    cases hw

/-- A new coroutine becomes a child of its group, which has children already, or becomes a
group with this child for its body. -/
structure Tasks.Joins (s s' : Tasks X) (x : Child) (lane : Lane) (open_ : Option GroupId) : Prop where
  sched : s'.sched = s.sched.spawnOwned lane .start
  child : s'.child = Function.update s.child s.sched.coroId (some x)
  other : ∀ g, g ≠ x.group → s'.groups g = s.groups g
  calls : s'.calls = s.calls
  panicked : s'.panicked = s.panicked
  le : s.groupId ≤ s'.groupId
  lt : x.group < s'.groupId
  new : ∀ g < s'.groupId, g ≠ x.group → g < s.groupId
  children : (s'.groups x.group).children = (s.groups x.group).children ++ [s.sched.coroId]
  waiting : (s'.groups x.group).waiting =
    if x.noWait then (s.groups x.group).waiting else (s.groups x.group).waiting + 1
  parent : (s'.groups x.group).parent < s.sched.coroId
  phase : (s'.groups x.group).phase = .waiting
  done : (s'.groups x.group).state = .done → (s'.groups x.group).result ≠ none
  offered : ∀ value, (s'.groups x.group).result = some value → value ∈ (s'.groups x.group).offered
  body : x.isBody = true → x.noWait = false ∧ x.allowFailure = false
  case : x.group < s.groupId ∧ (s.groups x.group).children ≠ [] ∧
      (s'.groups x.group).parent = (s.groups x.group).parent ∧ (s.groups x.group).phase = .waiting ∧
      ((s'.groups x.group).state = .running → (s.groups x.group).state = .running ∧
        ((s.groups x.group).result ≠ none → (s'.groups x.group).result ≠ none)) ∨
    s.groupId ≤ x.group ∧ x.isBody = true ∧ open_ = some x.group

/-- The next coroutine is nobody's child. -/
theorem Tasks.Inv.fresh_child (h : s.Inv ending open_) : s.child s.sched.coroId = none := by
  cases hx : s.child s.sched.coroId with
  | none => rfl
  | some y => exact absurd (h.spawned _ y hx) (Nat.lt_irrefl _)

theorem Tasks.Inv.fresh_notMem (h : s.Inv ending open_) (g : GroupId) :
    s.sched.coroId ∉ (s.groups g).children := by
  intro hmem
  obtain ⟨-, y, hy, -⟩ := (h.alive g _).mp hmem
  rw [h.fresh_child] at hy
  cases hy

namespace Tasks.Joins

variable {s' : Tasks X} {x : Child} {lane : Lane}

theorem child_self (j : s.Joins s' x lane open_) : s'.child s.sched.coroId = some x := by
  rw [j.child, Function.update_self]

theorem child_other (j : s.Joins s' x lane open_) (hc : c ≠ s.sched.coroId) : s'.child c = s.child c := by
  rw [j.child, Function.update_of_ne hc]

theorem child_live (j : s.Joins s' x lane open_) (h : s.Inv none open_) (hc : c ∈ (s.groups g).children) :
    s'.child c = s.child c :=
  j.child_other fun heq => h.fresh_notMem g (heq ▸ hc)

theorem coros_self (j : s.Joins s' x lane open_) :
    s'.sched.coros s.sched.coroId = ⟨lane, .suspend .start, true, false, true⟩ := by
  rw [j.sched, spawnOwned_coros, Function.update_self]

theorem coros_other (j : s.Joins s' x lane open_) (hc : c ≠ s.sched.coroId) :
    s'.sched.coros c = s.sched.coros c := by
  rw [j.sched, spawnOwned_coros, Function.update_of_ne hc]

theorem coroId (j : s.Joins s' x lane open_) : s'.sched.coroId = s.sched.coroId + 1 := by
  rw [j.sched]
  rfl

theorem moves (j : s.Joins s' x lane open_) (h : s.Inv none open_) : Moves [] s.sched s'.sched :=
  j.sched ▸ spawnOwned_moves s.sched h.sched lane

/-- The groups are in order with the new child. -/
theorem shape (j : s.Joins s' x lane open_) (h : s.Inv none open_) : s'.Shape where
  known c y hy := by
    by_cases hc : c = s.sched.coroId
    · subst hc
      rw [j.child_self] at hy
      cases hy
      exact ⟨j.lt, j.parent⟩
    · rw [j.child_other hc] at hy
      obtain ⟨hg, hp⟩ := h.shape.known c y hy
      refine ⟨Nat.lt_of_lt_of_le hg j.le, ?_⟩
      by_cases hgg : y.group = x.group
      · rw [hgg] at hg hp ⊢
        rcases j.case with ⟨-, -, hpar, -⟩ | ⟨hge, -⟩
        · exact hpar ▸ hp
        · exact absurd hg (Nat.not_lt.mpr hge)
      · rw [j.other _ hgg]
        exact hp
  unknown g hg := by
    rw [j.other g (Nat.ne_of_gt (Nat.lt_of_lt_of_le j.lt hg))]
    exact h.shape.unknown g (Nat.le_trans j.le hg)
  nodup g := by
    by_cases hgg : g = x.group
    · subst hgg
      rw [j.children]
      exact (h.shape.nodup _).append (List.nodup_singleton _) (by simpa using h.fresh_notMem _)
    · rw [j.other g hgg]
      exact h.shape.nodup g
  waiting g := by
    -- who was awaited before is awaited now
    have hfilter : (s.groups g).children.filter (fun c => (s'.child c).any fun y => !y.noWait) = s.awaited g :=
      List.filter_congr fun d hd => by rw [j.child_live h hd]
    by_cases hgg : g = x.group
    · subst hgg
      rw [Tasks.awaited, j.children, List.filter_append, hfilter, List.length_append, j.waiting, h.shape.waiting,
        List.filter_singleton, j.child_self]
      cases hw : x.noWait <;> simp [hw]
    · rw [Tasks.awaited, j.other g hgg, hfilter]
      exact h.shape.waiting g
  body c y hy hb := by
    by_cases hc : c = s.sched.coroId
    · subst hc
      rw [j.child_self] at hy
      cases hy
      exact j.body hb
    · rw [j.child_other hc] at hy
      exact h.shape.body c y hy hb
  running g hr := by
    -- the count was not negative, and a body is always counted
    have hcount : (0 : Int) ≤ (s.groups x.group).waiting := by
      rw [h.shape.waiting]
      exact Int.natCast_nonneg _
    by_cases hgg : g = x.group
    · subst hgg
      rw [j.waiting]
      rcases j.case with ⟨-, -, -, -, hst⟩ | ⟨-, hb, -⟩
      · have hpos := h.shape.running _ (hst hr).1
        split <;> omega
      · rw [(j.body hb).1, if_neg Bool.false_ne_true]
        omega
    · rw [j.other g hgg] at hr ⊢
      exact h.shape.running g hr
  result g hr := by
    -- the body of an old group is still in it, a new group has its body in the new child
    have hold : s.BodyRuns g → s'.BodyRuns g := by
      rintro ⟨c, y, hc, hy, hb⟩
      refine ⟨c, y, ?_, by rw [j.child_live h hc]; exact hy, hb⟩
      by_cases hgg : g = x.group
      · subst hgg
        rw [j.children]
        exact List.mem_append_left _ hc
      · rw [j.other g hgg]
        exact hc
    by_cases hgg : g = x.group
    · subst hgg
      rcases j.case with ⟨-, -, -, -, hst⟩ | ⟨-, hb, -⟩
      · exact (h.shape.result _ (hst hr).1).imp hold (hst hr).2
      · refine Or.inl ⟨s.sched.coroId, x, ?_, j.child_self, hb⟩
        rw [j.children]
        exact List.mem_append_right _ List.mem_cons_self
    · rw [j.other g hgg] at hr ⊢
      exact (h.shape.result g hr).imp_left hold
  done g hg hd := by
    by_cases hgg : g = x.group
    · subst hgg
      exact j.done hd
    · rw [j.other g hgg] at hd ⊢
      exact h.shape.done g (j.new g hg hgg) hd
  offered g value hv := by
    by_cases hgg : g = x.group
    · subst hgg
      exact j.offered value hv
    · rw [j.other g hgg] at hv ⊢
      exact h.shape.offered g value hv
  left g value hv := by
    by_cases hgg : g = x.group
    · subst hgg
      rw [j.phase] at hv
      cases hv
    · rw [j.other g hgg] at hv ⊢
      exact h.shape.left g value hv
  noChildren g hp := by
    by_cases hgg : g = x.group
    · subst hgg
      exact absurd j.phase hp
    · rw [j.other g hgg] at hp ⊢
      exact h.shape.noChildren g hp
  calls c g hmem := by
    rw [j.calls] at hmem
    obtain ⟨hg, hp⟩ := h.shape.calls c g hmem
    refine ⟨Nat.lt_of_lt_of_le hg j.le, ?_⟩
    by_cases hgg : g = x.group
    · subst hgg
      rcases j.case with ⟨-, -, -, hph, -⟩ | ⟨hge, -⟩
      · exact absurd hph hp
      · exact absurd hg (Nat.not_lt.mpr hge)
    · rw [j.other g hgg]
      exact hp
  calm := by
    rw [j.panicked]
    exact h.shape.calm

end Tasks.Joins

theorem Tasks.Inv.addChild (h : s.Inv none open_) {s' : Tasks X} {x : Child} {lane : Lane}
    (j : s.Joins s' x lane open_) : s'.Inv none open_ where
  shape := j.shape h
  sched := by
    rw [j.sched]
    exact h.sched.spawnOwned lane .start
  spawned c y hy := by
    rw [j.coroId]
    by_cases hc : c = s.sched.coroId
    · exact hc ▸ Nat.lt_succ_self _
    · rw [j.child_other hc] at hy
      exact Nat.lt_succ_of_lt (h.spawned c y hy)
  parent g hg := by
    rw [j.coroId]
    by_cases hgg : g = x.group
    · subst hgg
      exact Nat.lt_succ_of_lt j.parent
    · rw [j.other g hgg]
      exact Nat.lt_succ_of_lt (h.parent g (j.new g hg hgg))
  alive g c := by
    by_cases hc : c = s.sched.coroId
    · subst hc
      by_cases hgg : g = x.group
      · subst hgg
        rw [j.children]
        refine iff_of_true (List.mem_append_right _ List.mem_cons_self) ⟨by simp, x, j.child_self, rfl, ?_⟩
        rw [Ended, j.coros_self]
        simp
      · rw [j.other g hgg]
        refine iff_of_false (h.fresh_notMem g) ?_
        rintro ⟨-, y, hy, hyg, -⟩
        rw [j.child_self] at hy
        cases hy
        exact hgg hyg.symm
    -- of the others the same ones are alive
    · have halive : ∀ y, s'.Alive g c y ↔ s.Alive g c y := fun y => by
        rw [Tasks.Alive, Tasks.Alive, j.child_other hc, Ended, Ended, j.coros_other hc]
      refine Iff.trans ?_ ((h.alive g c).trans (and_congr_right fun _ => exists_congr fun y => (halive y).symm))
      by_cases hgg : g = x.group
      · subst hgg
        rw [j.children, List.mem_append, List.mem_singleton, or_iff_left hc]
      · rw [j.other g hgg]
  calm c y hy hb hcancelled := by
    by_cases hc : c = s.sched.coroId
    · subst hc
      rw [j.coros_self] at hcancelled
      cases hcancelled
    · rw [j.child_other hc] at hy
      rw [j.coros_other hc] at hcancelled
      have hold := h.calm c y hy hb hcancelled
      by_cases hgg : y.group = x.group
      · rw [hgg] at hold ⊢
        intro hr
        rcases j.case with ⟨-, -, -, -, hst⟩ | ⟨hge, -⟩
        · exact hold (hst hr).1
        · exact absurd (h.shape.known c y hy).1 (Nat.not_lt.mpr (hgg ▸ hge))
      · rw [j.other _ hgg]
        exact hold
  waits g c hw := by
    obtain ⟨hg, hpar, hready⟩ := h.waits g c (((j.moves h).waits g c).mp hw)
    -- who waits is a parent, and was spawned before
    have hc : c ≠ s.sched.coroId := by
      rintro rfl
      exact absurd (hpar ▸ h.parent g hg) (Nat.lt_irrefl _)
    rw [j.coros_other hc]
    by_cases hgg : g = x.group
    · subst hgg
      rcases j.case with ⟨-, hne, hp, -⟩ | ⟨hge, -⟩
      · refine ⟨j.lt, hp.trans hpar, hready.trans (or_congr (iff_of_false hne ?_) Iff.rfl)⟩
        rw [j.children]
        simp
      · exact absurd hg (Nat.not_lt.mpr hge)
    · rw [j.other g hgg]
      exact ⟨Nat.lt_of_lt_of_le hg j.le, hpar, hready⟩
  shielded g c hs := by
    have hs' := ((j.moves h).groupShielded c g).mp hs
    rw [(j.moves h).shielded c g (Or.inr hs')]
    exact h.shielded g c hs'
  attended g hopen hne := by
    refine ((j.moves h).waits g _).mpr ?_
    by_cases hgg : g = x.group
    · subst hgg
      -- the parent waits already, or is about to
      rcases j.case with ⟨-, hne', hp, -⟩ | ⟨-, -, ho⟩
      · rw [hp]
        exact h.attended _ hopen hne'
      · exact absurd ho hopen
    · rw [j.other g hgg] at hne ⊢
      exact h.attended g hopen hne

/-- A coroutine that waits for a group is suspended, and was spawned. -/
theorem Tasks.Inv.waits_spawned (h : s.Inv ending open_) (hw : WaitsFor s.sched g c) : c < s.sched.coroId := by
  refine h.sched.spawned fun hd => ?_
  rcases hw with hw | hw
  · rw [hd] at hw
    cases hw
  · rw [hd] at hw
    cases hw

/-- The child `c` leaves its group, and wakes the parent when it is the last. -/
structure Tasks.Leaves (s s' : Tasks X) (c : CoroId) (x : Child) : Prop where
  was : s.child c = some x
  mem : c ∈ (s.groups x.group).children
  kept : s'.child = s.child
  other : ∀ g, g ≠ x.group → s'.groups g = s.groups g
  calls : s'.calls = s.calls
  panicked : s'.panicked = s.panicked
  groupId : s'.groupId = s.groupId
  self : s'.groups x.group = { s.groups x.group with
    children := (s.groups x.group).children.erase c
    waiting := if x.noWait then (s.groups x.group).waiting else (s.groups x.group).waiting - 1 }
  sched : s'.sched = if (s.groups x.group).children.erase c = [] then s.sched.wake (s.groups x.group).parent
    else s.sched
  pos : (s.groups x.group).state = .running → 0 < (s'.groups x.group).waiting
  gives : (s.groups x.group).state = .running → x.isBody = true → (s.groups x.group).result ≠ none

namespace Tasks.Leaves

variable {s' : Tasks X} {x : Child}

theorem ne (l : s.Leaves s' c x) : (s.groups x.group).children ≠ [] := List.ne_nil_of_mem l.mem

theorem attended (l : s.Leaves s' c x) (h : s.Inv none none) :
    WaitsFor s.sched x.group (s.groups x.group).parent :=
  h.attended x.group (by simp) l.ne

theorem waited (l : s.Leaves s' c x) (h : s.Inv none none) : (s.groups x.group).phase = .waiting := by
  by_contra hp
  exact l.ne (h.shape.noChildren _ hp)

/-- What a group keeps. -/
theorem frame (l : s.Leaves s' c x) (g : GroupId) : (s'.groups g).parent = (s.groups g).parent ∧
    (s'.groups g).state = (s.groups g).state ∧ (s'.groups g).result = (s.groups g).result ∧
    (s'.groups g).offered = (s.groups g).offered ∧ (s'.groups g).phase = (s.groups g).phase := by
  by_cases hgg : g = x.group
  · subst hgg
    rw [l.self]
    exact ⟨rfl, rfl, rfl, rfl, rfl⟩
  · rw [l.other g hgg]
    exact ⟨rfl, rfl, rfl, rfl, rfl⟩

theorem parent (l : s.Leaves s' c x) (g : GroupId) : (s'.groups g).parent = (s.groups g).parent :=
  (l.frame g).1

theorem state (l : s.Leaves s' c x) (g : GroupId) : (s'.groups g).state = (s.groups g).state :=
  (l.frame g).2.1

theorem result (l : s.Leaves s' c x) (g : GroupId) : (s'.groups g).result = (s.groups g).result :=
  (l.frame g).2.2.1

theorem offered (l : s.Leaves s' c x) (g : GroupId) : (s'.groups g).offered = (s.groups g).offered :=
  (l.frame g).2.2.2.1

theorem phase (l : s.Leaves s' c x) (g : GroupId) : (s'.groups g).phase = (s.groups g).phase :=
  (l.frame g).2.2.2.2

theorem coroId (l : s.Leaves s' c x) : s'.sched.coroId = s.sched.coroId := by
  rw [l.sched]
  split <;> simp

/-- What a coroutine keeps. -/
theorem coros (l : s.Leaves s' c x) (d : CoroId) : (s'.sched.coros d).state = (s.sched.coros d).state ∧
    (s'.sched.coros d).interrupted = (s.sched.coros d).interrupted ∧
    (s'.sched.coros d).shielded = (s.sched.coros d).shielded ∧
    (s'.sched.coros d).cancelled = (s.sched.coros d).cancelled := by
  rw [l.sched]
  split
  · rw [Scheduler.wake_coros]
    by_cases hd : d = (s.groups x.group).parent
    · subst hd
      rw [Function.update_self]
      exact ⟨rfl, rfl, rfl, rfl⟩
    · rw [Function.update_of_ne hd]
      exact ⟨rfl, rfl, rfl, rfl⟩
  · exact ⟨rfl, rfl, rfl, rfl⟩

theorem waitsFor (l : s.Leaves s' c x) (g : GroupId) (d : CoroId) :
    WaitsFor s'.sched g d ↔ WaitsFor s.sched g d := by
  rw [WaitsFor, WaitsFor, (l.coros d).1]

theorem ended (l : s.Leaves s' c x) (d : CoroId) : Ended s'.sched d ↔ Ended s.sched d := by
  rw [Ended, Ended, (l.coros d).1]

/-- One less is waited for, unless the child was not. -/
theorem awaited_length (l : s.Leaves s' c x) (h : s.Inv none none) :
    (s'.awaited x.group).length = (s.awaited x.group).length - if x.noWait then 0 else 1 := by
  rw [Tasks.awaited, l.self, l.kept, (h.shape.nodup x.group).erase_eq_filter, List.filter_filter, Tasks.awaited]
  cases hw : x.noWait with
  | true =>
    congr 1
    refine List.filter_congr fun d _ => ?_
    by_cases hd : d = c
    · subst hd
      simp [l.was, hw]
    · simp [hd]
  | false =>
    have hin : c ∈ (s.groups x.group).children.filter fun c => (s.child c).any fun y => !y.noWait :=
      List.mem_filter.mpr ⟨l.mem, by simp [l.was, hw]⟩
    have herase := List.length_erase_of_mem hin
    rw [((h.shape.nodup x.group).filter _).erase_eq_filter, List.filter_filter] at herase
    rw [if_neg Bool.false_ne_true, ← herase]
    congr 1
    exact List.filter_congr fun d _ => Bool.and_comm _ _

/-- The groups are in order without the child. -/
theorem shape (l : s.Leaves s' c x) (h : s.Inv none none) : s'.Shape where
  known d y hy := by
    rw [l.kept] at hy
    rw [l.groupId, l.parent]
    exact h.shape.known d y hy
  unknown g hg := by
    rw [l.groupId] at hg
    rw [l.other g (Nat.ne_of_gt (Nat.lt_of_lt_of_le (h.shape.known c x l.was).1 hg))]
    exact h.shape.unknown g hg
  nodup g := by
    by_cases hgg : g = x.group
    · subst hgg
      rw [l.self]
      exact (h.shape.nodup x.group).erase c
    · rw [l.other g hgg]
      exact h.shape.nodup g
  waiting g := by
    by_cases hgg : g = x.group
    · subst hgg
      have hpositive : x.noWait = false → 0 < (s.awaited x.group).length := fun hw =>
        List.length_pos_of_mem (List.mem_filter.mpr ⟨l.mem, by simp [l.was, hw]⟩)
      rw [l.awaited_length h, l.self]
      dsimp only
      rw [h.shape.waiting]
      cases hw : x.noWait with
      | true => simp
      | false =>
        have := hpositive hw
        simp only [Bool.false_eq_true, if_false]
        omega
    · rw [Tasks.awaited, l.kept, l.other g hgg]
      exact h.shape.waiting g
  body := by
    rw [l.kept]
    exact h.shape.body
  running g hr := by
    rw [l.state] at hr
    by_cases hgg : g = x.group
    · subst hgg
      exact l.pos hr
    · rw [l.other g hgg]
      exact h.shape.running g hr
  result g hr := by
    rw [l.state] at hr
    rw [l.result]
    rcases h.shape.result g hr with ⟨d, y, hd, hy, hb⟩ | hr'
    -- if the body is the child that leaves, it has given the result
    · by_cases hgg : g = x.group
      · subst hgg
        by_cases hdc : d = c
        · subst hdc
          rw [l.was] at hy
          cases hy
          exact Or.inr (l.gives hr hb)
        · refine Or.inl ⟨d, y, ?_, l.kept ▸ hy, hb⟩
          rw [l.self]
          exact (List.mem_erase_of_ne hdc).mpr hd
      · exact Or.inl ⟨d, y, by rw [l.other g hgg]; exact hd, l.kept ▸ hy, hb⟩
    · exact Or.inr hr'
  done g hg hd := by
    rw [l.groupId] at hg
    rw [l.state] at hd
    rw [l.result]
    exact h.shape.done g hg hd
  offered g value hv := by
    rw [l.result] at hv
    rw [l.offered]
    exact h.shape.offered g value hv
  left g value hv := by
    rw [l.phase] at hv
    rw [l.offered]
    exact h.shape.left g value hv
  noChildren g hp := by
    rw [l.phase] at hp
    by_cases hgg : g = x.group
    · subst hgg
      exact absurd (l.waited h) hp
    · rw [l.other g hgg]
      exact h.shape.noChildren g hp
  calls := by
    rw [l.calls, l.groupId]
    intro d g hg
    rw [l.phase]
    exact h.shape.calls d g hg
  calm := by
    rw [l.panicked]
    exact h.shape.calm

end Tasks.Leaves

theorem Tasks.Inv.eraseChild (h : s.Inv none none) {s' : Tasks X} {x : Child} (l : s.Leaves s' c x) :
    s'.Inv (some c) none where
  shape := l.shape h
  sched := by
    rw [l.sched]
    split
    · exact h.sched.wake (h.waits_spawned (l.attended h))
    · exact h.sched
  spawned := by
    rw [l.kept, l.coroId]
    exact h.spawned
  parent g hg := by
    rw [l.groupId] at hg
    rw [l.coroId, l.parent]
    exact h.parent g hg
  alive g d := by
    have halive : ∀ y, s'.Alive g d y ↔ s.Alive g d y := fun y => by
      rw [Tasks.Alive, Tasks.Alive, l.kept, l.ended]
    have hold := h.alive g d
    simp only [halive]
    by_cases hgg : g = x.group
    · subst hgg
      rw [l.self]
      dsimp only
      rw [(h.shape.nodup x.group).mem_erase_iff, hold]
      exact ⟨fun hd => ⟨fun heq => hd.1 (Option.some.inj heq).symm, hd.2.2⟩,
        fun hd => ⟨fun heq => hd.1 (heq ▸ rfl), by simp, hd.2⟩⟩
    · rw [l.other g hgg, hold]
      refine and_congr_left fun hy => iff_of_true (by simp) fun heq => ?_
      obtain ⟨y, hy, hyg, -⟩ := hy
      cases heq
      rw [l.was] at hy
      cases hy
      exact hgg hyg.symm
  calm d y hy hb hcancelled := by
    rw [l.kept] at hy
    rw [(l.coros d).2.2.2] at hcancelled
    rw [l.state]
    exact h.calm d y hy hb hcancelled
  waits g d hw := by
    rw [l.waitsFor] at hw
    obtain ⟨hg, hp, hready⟩ := h.waits g d hw
    refine ⟨l.groupId ▸ hg, (l.parent g).trans hp, ?_⟩
    rw [(l.coros _).2.1]
    by_cases hgg : g = x.group
    · subst hgg
      rw [l.self, l.sched]
      dsimp only
      split
      · rename_i hnil
        -- the parent is ready just because the group is empty
        rw [Scheduler.wake_ready, hp, decide_eq_true rfl, Bool.true_or]
        exact iff_of_true rfl (Or.inl hnil)
      · rename_i hnil
        exact hready.trans (or_congr (iff_of_false l.ne hnil) Iff.rfl)
    · rw [l.other g hgg, l.sched]
      split
      · -- the parent that is woken waits for another group
        have hdp : d ≠ (s.groups x.group).parent := by
          rintro rfl
          rcases hw with hw | hw <;> rcases (l.attended h) with hq | hq <;> rw [hq] at hw <;> cases hw <;> exact hgg rfl
        rw [Scheduler.wake_ready, decide_eq_false hdp, Bool.false_or]
        exact hready
      · exact hready
  shielded g d hs := by
    rw [(l.coros _).1] at hs
    rw [(l.coros d).2.2.1]
    exact h.shielded g d hs
  attended g _ hne' := by
    rw [l.waitsFor, l.parent]
    refine h.attended g (by simp) fun hnil => hne' ?_
    by_cases hgg : g = x.group
    · subst hgg
      exact absurd hnil l.ne
    · rw [l.other g hgg]
      exact hnil

/-- A coroutine that is no child any more ends. -/
theorem Tasks.Inv.ends (h : s.Inv ending none) (hcurr : s.sched.currCoro = some c)
    (hnone : ending = some c ∨ ending = none ∧ s.child c = none) {state : CoroState Waits}
    (hstate : state = .done ∨ state = .fail) :
    ({ s with sched := s.sched.finish c state } : Tasks X).Inv none none := by
  have hrun := (h.sched.running c).mpr hcurr
  have hself : (s.sched.finish c state).coros c = { s.sched.coros c with state } := Function.update_self ..
  have hother : ∀ d, d ≠ c → (s.sched.finish c state).coros d = s.sched.coros d := fun d hd =>
    Function.update_of_ne hd ..
  -- the running coroutine waits for no group
  have hnowait : ∀ g, ¬WaitsFor s.sched g c := fun g hw => by
    rcases hw with hw | hw <;> rw [hrun] at hw <;> cases hw
  have hwaits : ∀ g d, WaitsFor (s.sched.finish c state) g d ↔ WaitsFor s.sched g d ∧ d ≠ c := fun g d => by
    by_cases hd : d = c
    · subst hd
      refine iff_of_false (fun hw => ?_) fun hw => hw.2 rfl
      rcases hstate with rfl | rfl <;> rcases hw with hw | hw <;> rw [hself] at hw <;> cases hw
    · rw [WaitsFor, WaitsFor, hother d hd]
      exact (and_iff_left hd).symm
  refine ⟨⟨h.shape.known, h.shape.unknown, h.shape.nodup, h.shape.waiting, h.shape.body, h.shape.running,
    h.shape.result, h.shape.done, h.shape.offered, h.shape.left, h.shape.noChildren, h.shape.calls, h.shape.calm⟩,
    h.sched.leave hcurr (by rcases hstate with rfl | rfl <;> simp), h.spawned, h.parent, fun g d => ?_,
    fun d y hy hb hcancelled => ?_, fun g d hw => ?_, fun g d hs => ?_, fun g _ hne => ?_⟩
  · refine (h.alive g d).trans ?_
    by_cases hd : d = c
    · subst hd
      refine iff_of_false (fun hmem => ?_) fun hmem => ?_
      · rcases hnone with hnone | ⟨-, hnone⟩
        · exact hmem.1 hnone
        · obtain ⟨y, hy, -⟩ := hmem.2
          rw [hnone] at hy
          cases hy
      · obtain ⟨y, -, -, hend⟩ := hmem.2
        refine hend ?_
        change ((s.sched.finish d state).coros d).state = _ ∨ ((s.sched.finish d state).coros d).state = _
        rw [hself]
        exact hstate
    · have hend : ending ≠ some d := by
        rcases hnone with hnone | ⟨hnone, -⟩ <;> rw [hnone]
        · exact fun heq => hd (Option.some.inj heq).symm
        · intro heq; cases heq
      refine and_congr (iff_of_true hend (by simp)) (exists_congr fun y => ?_)
      rw [Tasks.Alive, Tasks.Alive, Ended, Ended]
      dsimp only
      rw [hother d hd]
  · refine h.calm d y hy hb ?_
    by_cases hd : d = c
    · subst hd
      dsimp only at hcancelled
      rw [hself] at hcancelled
      exact hcancelled
    · dsimp only at hcancelled
      rwa [hother d hd] at hcancelled
  · obtain ⟨hw', hd⟩ := (hwaits g d).mp hw
    dsimp only
    rw [hother d hd]
    exact h.waits g d hw'
  · have hd : d ≠ c := ((hwaits g d).mp (Or.inr hs)).2
    dsimp only at hs ⊢
    rw [hother d hd] at hs ⊢
    exact h.shielded g d hs
  -- so no group loses the parent that waits for it
  · have hw := h.attended g (by simp) hne
    exact (hwaits g _).mpr ⟨hw, fun heq => hnowait g (heq ▸ hw)⟩

end

end TaskGroup

end Moonbit

end WitBindgen
