import WitBindgen.Moonbit.TaskGroup

/-!
# Groups and the coroutines that wait for them

A coroutine that waits for a group is ready exactly when the group is empty or the
coroutine is interrupted. Cancellations of all children change what waiting coroutines
see in that one way, and what else happens to coroutines leaves them alone.
-/

namespace WitBindgen

namespace Moonbit

namespace TaskGroup

variable {X : Type}

/-! ## What the waiting coroutines see -/

/-- No coroutine starts or stops to wait for a group, or ends. Those that wait are
left alone, or interrupted and woken. Only those in `cs` are cancelled. -/
structure Moves (cs : List CoroId) (s s' : Scheduler Waits) : Prop where
  coroId : s.coroId ≤ s'.coroId
  ended : ∀ d < s.coroId, Ended s' d ↔ Ended s d
  group : ∀ d g, (s'.coros d).state = .suspend (.group g) ↔ (s.coros d).state = .suspend (.group g)
  groupShielded : ∀ d g,
    (s'.coros d).state = .suspend (.groupShielded g) ↔ (s.coros d).state = .suspend (.groupShielded g)
  shielded : ∀ d g, WaitsFor s g d → (s'.coros d).shielded = (s.coros d).shielded
  notice : ∀ d g, WaitsFor s g d →
    (s'.coros d).ready = (s.coros d).ready ∧ (s'.coros d).interrupted = (s.coros d).interrupted ∨
    (s'.coros d).ready = true ∧ (s'.coros d).interrupted = true
  cancelled : ∀ d, (s'.coros d).cancelled = true → (s.coros d).cancelled = true ∨ d ∈ cs

namespace Moves

variable {cs : List CoroId} {s s₁ s' : Scheduler Waits} {c : CoroId}

theorem waits (h : Moves cs s s') (g : GroupId) (d : CoroId) : WaitsFor s' g d ↔ WaitsFor s g d :=
  or_congr (h.group d g) (h.groupShielded d g)

theorem refl (s : Scheduler Waits) : Moves cs s s :=
  ⟨Nat.le_refl _, fun _ _ => Iff.rfl, fun _ _ => Iff.rfl, fun _ _ => Iff.rfl, fun _ _ _ => rfl,
    fun _ _ _ => Or.inl ⟨rfl, rfl⟩, fun _ => Or.inl⟩

theorem trans (h : Moves cs s s₁) (h' : Moves cs s₁ s') : Moves cs s s' where
  coroId := Nat.le_trans h.coroId h'.coroId
  ended d hd := (h'.ended d (Nat.lt_of_lt_of_le hd h.coroId)).trans (h.ended d hd)
  group d g := (h'.group d g).trans (h.group d g)
  groupShielded d g := (h'.groupShielded d g).trans (h.groupShielded d g)
  shielded d g hw := (h'.shielded d g ((h.waits g d).mpr hw)).trans (h.shielded d g hw)
  notice d g hw := by
    rcases h'.notice d g ((h.waits g d).mpr hw) with ⟨hr, hi⟩ | hn
    · rw [hr, hi]
      exact h.notice d g hw
    · exact Or.inr hn
  cancelled d hd := by
    rcases h'.cancelled d hd with hd | hd
    · exact h.cancelled d hd
    · exact Or.inr hd

/-- A change of a coroutine that does not wait for a group, before or after. -/
theorem update {x : Coroutine Waits} (hcoros : s'.coros = Function.update s.coros c x)
    (hcoroId : s.coroId ≤ s'.coroId) (hold : ∀ g, ¬WaitsFor s g c)
    (hnew : ∀ g, x.state ≠ .suspend (.group g) ∧ x.state ≠ .suspend (.groupShielded g))
    (hended : c < s.coroId → (x.state = .done ∨ x.state = .fail ↔ Ended s c))
    (hcancelled : x.cancelled = true → (s.coros c).cancelled = true ∨ c ∈ cs) : Moves cs s s' := by
  have hother : ∀ d, d ≠ c → s'.coros d = s.coros d := fun d hd => by rw [hcoros, Function.update_of_ne hd]
  have hself : s'.coros c = x := by rw [hcoros, Function.update_self]
  have hwaits : ∀ d g, WaitsFor s g d → s'.coros d = s.coros d := fun d g hw =>
    hother d fun hd => hold g (hd ▸ hw)
  constructor
  · exact hcoroId
  · intro d hd
    by_cases hdc : d = c
    · subst hdc
      rw [Ended, hself]
      exact hended hd
    · rw [Ended, hother d hdc, Ended]
  · intro d g
    by_cases hdc : d = c
    · subst hdc
      rw [hself]
      exact iff_of_false (hnew g).1 fun hs => hold g (Or.inl hs)
    · rw [hother d hdc]
  · intro d g
    by_cases hdc : d = c
    · subst hdc
      rw [hself]
      exact iff_of_false (hnew g).2 fun hs => hold g (Or.inr hs)
    · rw [hother d hdc]
  · intro d g hw
    rw [hwaits d g hw]
  · intro d g hw
    rw [hwaits d g hw]
    exact Or.inl ⟨rfl, rfl⟩
  · intro d hd
    by_cases hdc : d = c
    · subst hdc
      rw [hself] at hd
      exact hcancelled hd
    · rw [hother d hdc] at hd
      exact Or.inl hd

theorem cancel (s : Scheduler Waits) (hc : c ∈ cs) : Moves cs s (s.cancel c) := by
  have hstate : ∀ d, ((s.cancel c).coros d).state = (s.coros d).state := by
    intro d
    rw [Scheduler.cancel_coros]
    by_cases hd : d = c
    · subst hd
      rw [Function.update_self]
      split <;> rfl
    · rw [Function.update_of_ne hd]
  have hshielded : ∀ d, ((s.cancel c).coros d).shielded = (s.coros d).shielded := by
    intro d
    rw [Scheduler.cancel_coros]
    by_cases hd : d = c
    · subst hd
      rw [Function.update_self]
      split <;> rfl
    · rw [Function.update_of_ne hd]
  constructor
  · rw [Scheduler.cancel_coroId]
  · intro d _
    rw [Ended, hstate, Ended]
  · intro d g
    rw [hstate]
  · intro d g
    rw [hstate]
  · intro d g _
    exact hshielded d
  · intro d g hw
    rw [Scheduler.cancel_coros]
    by_cases hd : d = c
    · subst hd
      rw [Function.update_self]
      have hk : ∃ k, (s.coros d).state = .suspend k := hw.elim (fun h => ⟨_, h⟩) (fun h => ⟨_, h⟩)
      obtain ⟨k, hk⟩ := hk
      rw [hk]
      cases hs : (s.coros d).shielded <;> simp [Coroutine.interrupted, hs]
    · rw [Function.update_of_ne hd]
      exact Or.inl ⟨rfl, rfl⟩
  · intro d hd
    by_cases hdc : d = c
    · exact Or.inr (hdc ▸ hc)
    · rw [Scheduler.cancel_coros, Function.update_of_ne hdc] at hd
      exact Or.inl hd

end Moves

section
variable {s : Scheduler Waits}

theorem cancelAll_moves {cs : List CoroId} (children : List CoroId) (hsub : children ⊆ cs) (s : Scheduler Waits) :
    Moves cs s (cancelAll children s) := by
  induction children generalizing s with
  | nil => exact .refl s
  | cons c children ih =>
    rw [cancelAll, List.foldl_cons]
    exact (Moves.cancel s (hsub List.mem_cons_self)).trans
      (ih (fun d hd => hsub (List.mem_cons_of_mem _ hd)) _)

theorem cancelAll_inv (h : s.Inv) (children : List CoroId) : (cancelAll children s).Inv := by
  induction children generalizing s with
  | nil => exact h
  | cons c children ih =>
    rw [cancelAll, List.foldl_cons]
    exact ih h.cancel

@[simp] theorem cancelAll_currCoro (children : List CoroId) (s : Scheduler Waits) :
    (cancelAll children s).currCoro = s.currCoro := by
  induction children generalizing s with
  | nil => rfl
  | cons c children ih =>
    rw [cancelAll, List.foldl_cons]
    exact (ih _).trans Scheduler.cancel_currCoro

theorem cancelAll_other {children : List CoroId} {c : CoroId} (h : c ∉ children) (s : Scheduler Waits) :
    (cancelAll children s).coros c = s.coros c := by
  induction children generalizing s with
  | nil => rfl
  | cons d children ih =>
    rw [List.mem_cons, not_or] at h
    rw [cancelAll, List.foldl_cons]
    refine (ih h.2 _).trans ?_
    rw [Scheduler.cancel_coros, Function.update_of_ne h.1]

end

/-! ## The invariant -/

namespace Tasks

variable (s : Tasks X)

/-- The children that a group waits for. -/
def awaited (g : GroupId) : List CoroId :=
  (s.groups g).children.filter fun c => (s.child c).any fun x => !x.noWait

/-- The child that runs the body has not ended. -/
def BodyRuns (g : GroupId) : Prop :=
  ∃ c x, c ∈ (s.groups g).children ∧ s.child c = some x ∧ x.isBody = true

/-- What holds of groups and their children, whatever the coroutines do. -/
structure Shape : Prop where
  known : ∀ c x, s.child c = some x → x.group < s.groupId ∧ (s.groups x.group).parent < c
  unknown : ∀ g, s.groupId ≤ g → (s.groups g).children = [] ∧ (s.groups g).waiting = 0 ∧
    (s.groups g).state ≠ .running ∧ (s.groups g).phase = .waiting
  nodup : ∀ g, (s.groups g).children.Nodup
  waiting : ∀ g, (s.groups g).waiting = (s.awaited g).length
  body : ∀ c x, s.child c = some x → x.isBody = true → x.noWait = false ∧ x.allowFailure = false
  /-- While a group runs it waits for somebody, and its body runs or has left a value. -/
  running : ∀ g, (s.groups g).state = .running → 0 < (s.groups g).waiting
  result : ∀ g, (s.groups g).state = .running → s.BodyRuns g ∨ (s.groups g).result ≠ none
  done : ∀ g < s.groupId, (s.groups g).state = .done → (s.groups g).result ≠ none
  offered : ∀ g value, (s.groups g).result = some value → value ∈ (s.groups g).offered
  left : ∀ g value, (s.groups g).phase = .left (.returned value) → value ∈ (s.groups g).offered
  noChildren : ∀ g, (s.groups g).phase ≠ .waiting → (s.groups g).children = []
  calls : ∀ c, ∀ g ∈ s.calls c, g < s.groupId ∧ (s.groups g).phase ≠ .waiting
  calm : ∀ p, s.panicked = some p → p = .terminated

/-- With `ending`, a child that has left its group but still runs; and `open_`, the group
whose parent does not wait yet, or no longer. -/
structure Inv (ending : Option CoroId) (open_ : Option GroupId) : Prop where
  shape : s.Shape
  sched : s.sched.Inv
  spawned : ∀ c x, s.child c = some x → c < s.sched.coroId
  parent : ∀ g < s.groupId, (s.groups g).parent < s.sched.coroId
  alive : ∀ g c, c ∈ (s.groups g).children ↔ ending ≠ some c ∧ ∃ x, s.Alive g c x
  /-- Only the group cancels its body, and runs no longer then. -/
  calm : ∀ c x, s.child c = some x → x.isBody = true → (s.sched.coros c).cancelled = true →
    (s.groups x.group).state ≠ .running
  waits : ∀ g c, WaitsFor s.sched g c → g < s.groupId ∧ (s.groups g).parent = c ∧
    ((s.sched.coros c).ready = true ↔ (s.groups g).children = [] ∨ (s.sched.coros c).interrupted = true)
  shielded : ∀ g c, (s.sched.coros c).state = .suspend (.groupShielded g) → (s.sched.coros c).shielded = true
  attended : ∀ g, open_ ≠ some g → (s.groups g).children ≠ [] → WaitsFor s.sched g (s.groups g).parent

end Tasks

section
variable {s : Tasks X} {ending : Option CoroId} {open_ : Option GroupId} {c : CoroId} {g : GroupId}

@[simp] theorem Tasks.setGroup_self (s : Tasks X) (g : GroupId) (tg : Group X) : (s.setGroup g tg).groups g = tg :=
  Function.update_self ..

/-- What holds of the group that is set, and of the others as they were, holds of all. -/
theorem Tasks.setGroup_all (s : Tasks X) {P : GroupId → Group X → Prop} {g : GroupId} {tg : Group X} (hself : P g tg)
    (hothers : ∀ g', g' ≠ g → P g' (s.groups g')) (g' : GroupId) : P g' ((s.setGroup g tg).groups g') := by
  by_cases hgg : g' = g
  · subst hgg
    rwa [Tasks.setGroup_self]
  · have hother : (s.setGroup g tg).groups g' = s.groups g' := Function.update_of_ne hgg ..
    rw [hother]
    exact hothers g' hgg

theorem Tasks.setGroup_field {α : Type} (s : Tasks X) (f : Group X → α) {g : GroupId} {tg : Group X}
    (hf : f tg = f (s.groups g)) (g' : GroupId) : f ((s.setGroup g tg).groups g') = f (s.groups g') :=
  s.setGroup_all (P := fun g' x => f x = f (s.groups g')) hf (fun _ _ => rfl) g'

theorem Tasks.Inv.of_children (h : s.Inv ending (some g)) (hnone : (s.groups g).children = []) :
    s.Inv ending none :=
  { h with attended := fun g' _ hne => h.attended g' (fun heq => hne (Option.some.inj heq ▸ hnone)) hne }

/-- The parent of a group is not among its children. -/
theorem Tasks.Inv.parent_not_child (h : s.Inv ending open_) : (s.groups g).parent ∉ (s.groups g).children := by
  intro hmem
  obtain ⟨-, x, hx, rfl, -⟩ := (h.alive g _).mp hmem
  exact Nat.lt_irrefl _ (h.shape.known _ x hx).2

/-- Coroutines move as `Moves` says. -/
theorem Tasks.Inv.moves (h : s.Inv ending open_) {cs : List CoroId} {sched : Scheduler Waits}
    (hm : Moves cs s.sched sched) (hinv : sched.Inv)
    (hbody : ∀ c ∈ cs, ∀ x, s.child c = some x → x.isBody = true → (s.groups x.group).state ≠ .running) :
    ({ s with sched } : Tasks X).Inv ending open_ where
  shape := ⟨h.shape.known, h.shape.unknown, h.shape.nodup, h.shape.waiting, h.shape.body, h.shape.running,
    h.shape.result, h.shape.done, h.shape.offered, h.shape.left, h.shape.noChildren, h.shape.calls, h.shape.calm⟩
  sched := hinv
  spawned c x hx := Nat.lt_of_lt_of_le (h.spawned c x hx) hm.coroId
  parent g hg := Nat.lt_of_lt_of_le (h.parent g hg) hm.coroId
  alive g c := by
    refine (h.alive g c).trans (and_congr_right fun _ => exists_congr fun x => ?_)
    exact and_congr_right fun hx => and_congr_right fun _ =>
      not_congr (hm.ended c (h.spawned c x hx)).symm
  calm c x hx hb hcancelled := by
    rcases hm.cancelled c hcancelled with hc | hc
    · exact h.calm c x hx hb hc
    · exact hbody c hc x hx hb
  waits g c hw := by
    have hw' := (hm.waits g c).mp hw
    obtain ⟨hg, hparent, hready⟩ := h.waits g c hw'
    refine ⟨hg, hparent, ?_⟩
    rcases hm.notice c g hw' with ⟨hr, hi⟩ | ⟨hr, hi⟩
    · rw [hr, hi]
      exact hready
    · exact iff_of_true hr (Or.inr hi)
  shielded g c hs := by
    have hs' := (hm.groupShielded c g).mp hs
    rw [hm.shielded c g (Or.inr hs')]
    exact h.shielded g c hs'
  attended g hopen hne := (hm.waits g _).mpr (h.attended g hopen hne)

/-- A group changes, but not its children. -/
theorem Tasks.Inv.setGroup (h : s.Inv ending open_) {tg : Group X} (hg : g < s.groupId)
    (hchildren : tg.children = (s.groups g).children) (hparent : tg.parent = (s.groups g).parent)
    (hwaiting : tg.waiting = (s.groups g).waiting)
    (hstate : tg.state = .running → (s.groups g).state = .running)
    (hresult : (s.groups g).result ≠ none → tg.result ≠ none) (hdone : tg.state = .done → tg.result ≠ none)
    (hoffered : ∀ value, tg.result = some value → value ∈ tg.offered)
    (hphase : (s.groups g).phase ≠ .waiting → tg.phase ≠ .waiting)
    (hover : tg.phase ≠ .waiting → (s.groups g).children = [])
    (hleft : ∀ value, tg.phase = .left (.returned value) → value ∈ tg.offered) :
    (s.setGroup g tg).Inv ending open_ := by
  have hother : ∀ g', g' ≠ g → (s.setGroup g tg).groups g' = s.groups g' := fun g' hne =>
    Function.update_of_ne hne ..
  have hch : ∀ g', ((s.setGroup g tg).groups g').children = (s.groups g').children :=
    s.setGroup_field Group.children hchildren
  have hpar : ∀ g', ((s.setGroup g tg).groups g').parent = (s.groups g').parent :=
    s.setGroup_field Group.parent hparent
  have hwt : ∀ g', ((s.setGroup g tg).groups g').waiting = (s.groups g').waiting :=
    s.setGroup_field Group.waiting hwaiting
  -- no group runs that did not run
  have hst : ∀ g', ((s.setGroup g tg).groups g').state = .running → (s.groups g').state = .running :=
    s.setGroup_all (P := fun g' x => x.state = .running → (s.groups g').state = .running) hstate fun _ _ => id
  constructor
  · constructor
    · intro c x hx
      rw [hpar]
      exact h.shape.known c x hx
    · intro g' hg'
      rw [hother g' (Nat.ne_of_gt (Nat.lt_of_lt_of_le hg hg'))]
      exact h.shape.unknown g' hg'
    · intro g'
      rw [hch]
      exact h.shape.nodup g'
    · intro g'
      rw [hwt, Tasks.awaited, hch]
      exact h.shape.waiting g'
    · exact h.shape.body
    · intro g' hr
      rw [hwt]
      exact h.shape.running g' (hst g' hr)
    · intro g' hr
      rcases h.shape.result g' (hst g' hr) with ⟨c, x, hc, hx⟩ | hres
      · exact Or.inl ⟨c, x, by rw [hch]; exact hc, hx⟩
      · right
        exact s.setGroup_all (P := fun g' x => (s.groups g').result ≠ none → x.result ≠ none)
          hresult (fun _ _ => id) g' hres
    · exact s.setGroup_all (P := fun g' x => g' < s.groupId → x.state = .done → x.result ≠ none)
        (fun _ => hdone) fun g' _ => h.shape.done g'
    · exact s.setGroup_all (P := fun _ x => ∀ value, x.result = some value → value ∈ x.offered)
        hoffered fun g' _ => h.shape.offered g'
    · exact s.setGroup_all (P := fun _ x => ∀ value, x.phase = .left (.returned value) → value ∈ x.offered)
        hleft fun g' _ => h.shape.left g'
    · intro g' hp
      rw [hch]
      exact s.setGroup_all (P := fun g' x => x.phase ≠ .waiting → (s.groups g').children = [])
        hover (fun g' _ => h.shape.noChildren g') g' hp
    · intro c g' hmem
      obtain ⟨hlt, hp⟩ := h.shape.calls c g' hmem
      refine ⟨hlt, ?_⟩
      exact s.setGroup_all (P := fun g' x => (s.groups g').phase ≠ .waiting → x.phase ≠ .waiting)
        hphase (fun _ _ => id) g' hp
    · exact h.shape.calm
  · exact h.sched
  · exact h.spawned
  · intro g' hg'
    rw [hpar]
    exact h.parent g' hg'
  · intro g' c
    rw [hch]
    exact h.alive g' c
  · intro c x hx hb hc hr
    exact h.calm c x hx hb hc (hst _ hr)
  · intro g' c hw
    rw [hpar, hch]
    exact h.waits g' c hw
  · exact h.shielded
  · intro g' hopen hne
    rw [hch] at hne
    rw [hpar]
    exact h.attended g' hopen hne

end

end TaskGroup

end Moonbit

end WitBindgen
