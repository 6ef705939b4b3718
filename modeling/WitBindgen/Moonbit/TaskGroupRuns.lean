import WitBindgen.Moonbit.TaskGroupWaits

/-!
# Structured concurrency

A coroutine that waits for a group is ready exactly when the group is empty or the
coroutine is interrupted: the last child wakes it, cancellations do, and nothing else
may. So its wait ends with an empty group.
-/

namespace WitBindgen

namespace Moonbit

namespace TaskGroup

variable {X : Type}

section
variable {s : Tasks X} {ending : Option CoroId} {open_ : Option GroupId} {c : CoroId} {g : GroupId}

/-! ## Runs -/

theorem Tasks.Inv.empty : (Tasks.empty : Tasks X).Inv none none := by
  have hstate : ∀ c k, ((Tasks.empty : Tasks X).sched.coros c).state ≠ .suspend k := fun _ _ => nofun
  refine ⟨⟨nofun, fun _ _ => ⟨rfl, rfl, nofun, rfl⟩, fun _ => .nil, fun _ => rfl, nofun, nofun, nofun, nofun, nofun,
    nofun, fun g hp => absurd rfl hp, nofun, nofun⟩, .empty, nofun, nofun, fun g c => ?_, nofun, fun g c hw => ?_,
    fun g c hs => absurd hs (hstate c _), fun g _ hne => absurd rfl hne⟩
  · refine iff_of_false List.not_mem_nil ?_
    rintro ⟨-, x, hx, -⟩
    cases hx
  · exact absurd hw (not_or.mpr ⟨hstate c _, hstate c _⟩)

theorem Tasks.Inv.act (h : s.Inv none none) (hcurr : s.sched.currCoro = some c) {a : Act X} (ha : s.MayAct c a)
    (hclean : s.Clean (.act a)) : (s.act c a).Inv none none := by
  cases a with
  | suspend =>
    rw [Tasks.act]
    split
    · exact h
    · refine h.moves (?_ : Moves [] _ _) (h.sched.leave hcurr nofun) nofun
      refine .update (x := { s.sched.coros c with state := .suspend .other }) rfl (Nat.le_refl _)
        (running_not_waits h.sched hcurr) (fun g => ⟨nofun, nofun⟩) (fun _ => ?_) Or.inl
      rw [Ended, (h.sched.running c).mpr hcurr]
      simp
  | shield shielded =>
    exact h.moves (shield_moves (running_not_waits h.sched hcurr) shielded)
      (shield_inv h.sched c shielded) nofun
  | withTaskGroup => exact h.withTaskGroup hcurr (hclean c hcurr)
  | spawnCoroutine g noWait allowFailure => exact h.spawnCoroutine ha noWait allowFailure
  | returnImmediately g value => exact h.returnImmediately ha value
  | addDefer g => exact h.addDefer ha
  | endDefer failed => exact h.endDefer failed
  | finish e => exact h.finish hcurr ha

theorem Tasks.Inv.exec (h : s.Inv none none) {e : Event X} (ha : s.Allowed e) (hclean : s.Clean e) :
    (s.exec e).Inv none none := by
  obtain ⟨-, ha⟩ := ha
  cases e with
  | spawn lane =>
    exact h.moves (spawnOwned_moves s.sched h.sched lane) (h.sched.spawnOwned lane .start) nofun
  | turn lane => exact h.turn ha lane
  | wake c =>
    refine h.moves (?_ : Moves [] _ _) (h.sched.wake ha) nofun
    exact .update Scheduler.wake_coros (Nat.le_of_eq Scheduler.wake_coroId.symm)
      (fun g hw => hw.elim (hclean g).1 (hclean g).2) hclean (fun _ => Iff.rfl) Or.inl
  | cancel c =>
    refine h.moves (Moves.cancel _ List.mem_cons_self : Moves [c] _ _) h.sched.cancel fun d hd x hx hb => ?_
    obtain rfl := List.mem_singleton.mp hd
    rw [ha x hx] at hb
    cases hb
  | act a =>
    obtain ⟨c, hcurr, hmay⟩ := ha
    rw [Tasks.exec, hcurr]
    exact h.act hcurr hmay hclean

theorem Tasks.Inv.of_reachable (h : (cleanTasks X).Reachable s) : s.Inv none none := by
  refine System.Reachable.invariant (S := cleanTasks X) (I := fun s => s.Inv none none) ?_ ?_ h
  · rintro s rfl
    exact .empty
  · intro s e s' hi ha he
    obtain rfl := Except.ok.inj he
    exact hi.exec ha.1 ha.2

/-- A group without children has no child that is alive. -/
theorem Tasks.Inv.children_nil (h : s.Inv none none) :
    (s.groups g).children = [] ↔ ∀ c x, ¬s.Alive g c x := by
  rw [List.eq_nil_iff_forall_not_mem]
  refine forall_congr' fun c => ?_
  rw [h.alive, not_and]
  exact ⟨fun hno x hx => hno nofun ⟨x, hx⟩, fun hno _ ⟨x, hx⟩ => hno x hx⟩

theorem Tasks.Inv.toStructured (h : s.Inv none none) : s.Structured where
  calm := h.shape.calm
  ended g outcome hp := h.children_nil.mp (h.shape.noChildren g (by simp [hp]))
  waiting g _ := by
    refine ⟨(s.awaited g).toFinset, ?_, fun c => ?_⟩
    · have hnodup : (s.awaited g).Nodup := (h.shape.nodup g).filter _
      rw [List.toFinset_card_of_nodup hnodup]
      exact h.shape.waiting g
    · rw [List.mem_toFinset, Tasks.awaited, List.mem_filter, h.alive]
      constructor
      · rintro ⟨⟨-, x, hx⟩, hw⟩
        refine ⟨x, hx, ?_⟩
        simpa [hx.1] using hw
      · rintro ⟨x, hx, hw⟩
        exact ⟨⟨by simp, x, hx⟩, by simp [hx.1, hw]⟩
  resumed g c hw hready := ((h.waits g c hw).2.2.mp hready).imp_left h.children_nil.mp
  value := h.shape.left
  settled g outcome hp hr := h.shape.children_ne hr (h.shape.noChildren g (by simp [hp]))

theorem Tasks.Inv.resumes (h : s.Inv none none) {s' : Tasks X} (h' : s'.Inv none none) : s.Resumes s' := by
  intro g c hw hw' hready hready'
  have hbefore := not_or.mp (mt (h.waits g c hw).2.2.mpr (by rw [hready]; nofun))
  rcases (h'.waits g c hw').2.2.mp hready' with hnil | hi
  · refine Or.inl ⟨?_, h'.children_nil.mp hnil⟩
    by_contra hno
    exact hbefore.1 (h.children_nil.mpr fun d x hx => hno ⟨d, x, hx⟩)
  · exact Or.inr ⟨Bool.not_eq_true _ ▸ hbefore.2, hi⟩

/-- In every clean run, groups are structured: `with_task_group` ends without a child
alive, and its wait ends with the last child or with a cancellation of its coroutine. -/
theorem groups_structured (s : Tasks X) (h : (cleanTasks X).Reachable s) :
    s.Structured ∧ ∀ e, s.Allowed e → s.Clean e → s.Resumes (s.exec e) :=
  ⟨(Tasks.Inv.of_reachable h).toStructured, fun _ ha hclean =>
    (Tasks.Inv.of_reachable h).resumes ((Tasks.Inv.of_reachable h).exec ha hclean)⟩

end

/-- The body spawns a child that the group does not wait for, and returns; the child is
cancelled, and the group returns the value of the body. -/
theorem groups_structured_returned : ∃ s : Tasks Nat,
    (s.groups 0).phase = .left (.returned 7) ∧ s.Structured := by
  have h₀ : (cleanTasks Nat).Reachable .empty := .init _ rfl
  have h₁ := h₀.step _ _ (Event.spawn 0) ⟨⟨rfl, trivial⟩, trivial⟩ rfl
  have h₂ := h₁.step _ _ (Event.turn 0) ⟨⟨rfl, rfl⟩, trivial⟩ rfl
  have h₃ := h₂.step _ _ (Event.act .withTaskGroup) ⟨⟨rfl, 0, rfl, trivial⟩, fun c hc => by cases hc; rfl⟩ rfl
  have h₄ := h₃.step _ _ (Event.turn 0) ⟨⟨rfl, rfl⟩, trivial⟩ rfl
  have h₅ := h₄.step _ _ (Event.act (.spawnCoroutine 0 true false))
    ⟨⟨rfl, 1, rfl, Nat.le_of_ble_eq_true rfl⟩, trivial⟩ rfl
  have h₆ := h₅.step _ _ (Event.act (.finish (.body 7))) ⟨⟨rfl, 1, rfl, rfl, _, rfl, rfl⟩, trivial⟩ rfl
  have h₇ := h₆.step _ _ (Event.turn 0) ⟨⟨rfl, rfl⟩, trivial⟩ rfl
  have h₈ := h₇.step _ _ (Event.act (.finish .cancelled)) ⟨⟨rfl, 2, rfl, rfl, trivial⟩, trivial⟩ rfl
  have h₉ := h₈.step _ _ (Event.turn 0) ⟨⟨rfl, rfl⟩, trivial⟩ rfl
  exact ⟨_, rfl, (groups_structured _ h₉).1⟩

/-- A body ends its own group early, which cancels it while it runs, and then opens a
group of its own for its cleanup. The entry that the cancellation left in the run
queue ends the wait for that group while its body has not started. -/
theorem group_left_unstructured : ∃ s : Tasks Nat, (tasks Nat).Reachable s ∧
    s.panicked = some .childrenLeft ∧ s.Alive 1 2 ⟨1, false, false, true⟩ ∧ ¬s.Structured := by
  have h₀ : (tasks Nat).Reachable .empty := .init _ rfl
  have h₁ := h₀.step _ _ (Event.spawn 0) ⟨rfl, trivial⟩ rfl
  have h₂ := h₁.step _ _ (Event.turn 0) ⟨rfl, rfl⟩ rfl
  have h₃ := h₂.step _ _ (Event.act .withTaskGroup) ⟨rfl, 0, rfl, trivial⟩ rfl
  have h₄ := h₃.step _ _ (Event.turn 0) ⟨rfl, rfl⟩ rfl
  have h₅ := h₄.step _ _ (Event.act (.returnImmediately 0 7)) ⟨rfl, 1, rfl, Nat.le_of_ble_eq_true rfl⟩ rfl
  have h₆ := h₅.step _ _ (Event.act .withTaskGroup) ⟨rfl, 1, rfl, trivial⟩ rfl
  have h₇ := h₆.step _ _ (Event.turn 0) ⟨rfl, rfl⟩ rfl
  refine ⟨_, h₇, rfl, ⟨rfl, rfl, ?_⟩, fun hs => ?_⟩
  · rintro (hend | hend) <;> cases hend
  · cases hs.calm _ rfl

end TaskGroup

end Moonbit

end WitBindgen
