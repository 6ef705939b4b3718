import Mathlib.Logic.Function.Basic
import Mathlib.Tactic.Common

/-!
# Coroutines of the MoonBit runtime

`async/coroutine.mbt` and `async/scheduler.mbt`: the coroutines of all component
tasks share one thread. A coroutine that is woken stands in the run queue of its
task's lane until a scheduling round takes it out; the queue does not say what it
was woken for. A coroutine that is cancelled while it runs is woken all the same,
so that its entry can be taken out when it waits for something else.
-/

namespace WitBindgen

namespace Moonbit

abbrev CoroId := Nat
/-- The lane of a component task, by its waitable set. -/
abbrev Lane := Nat

/-- `K` says where a suspended coroutine goes on. -/
inductive CoroState (K : Type) where
  | done
  | fail
  | running
  | suspend (k : K)
deriving DecidableEq

structure Coroutine (K : Type) where
  lane : Lane
  state : CoroState K
  shielded : Bool
  cancelled : Bool
  ready : Bool

/-- `is_being_cancelled`: what makes a suspension raise `Cancelled`. -/
def Coroutine.interrupted {K : Type} (c : Coroutine K) : Bool := c.cancelled && !c.shielded

/-- All coroutines, the run queue of each lane, and the coroutine that runs. -/
structure Scheduler (K : Type) where
  coros : CoroId → Coroutine K
  runLater : Lane → List CoroId
  currCoro : Option CoroId
  coroId : CoroId

namespace Scheduler

variable {K : Type} (s : Scheduler K)

/-- No coroutine was spawned. -/
def empty : Scheduler K where
  coros _ := ⟨0, .done, true, false, false⟩
  runLater _ := []
  currCoro := none
  coroId := 0

def set (c : CoroId) (x : Coroutine K) : Scheduler K :=
  { s with coros := Function.update s.coros c x }

def enqueue (c : CoroId) : Scheduler K :=
  { s with runLater := Function.update s.runLater (s.coros c).lane (s.runLater (s.coros c).lane ++ [c]) }

def wake (c : CoroId) : Scheduler K :=
  if (s.coros c).ready then s else (s.set c { s.coros c with ready := true }).enqueue c

def cancel (c : CoroId) : Scheduler K :=
  match (s.coros c).state with
  | .done | .fail => s
  | .running | .suspend _ =>
    let s := s.set c { s.coros c with cancelled := true }
    if (s.coros c).shielded then s else s.wake c

/-- `spawn_owned`: the new coroutine is shielded until it starts with `k`. -/
def spawnOwned (lane : Lane) (k : K) : Scheduler K :=
  ({ s with coroId := s.coroId + 1 }.set s.coroId ⟨lane, .suspend k, true, false, true⟩).enqueue s.coroId

/-- The part of `suspend` after its check for a cancellation. -/
def suspend (c : CoroId) (k : K) : Scheduler K :=
  { s.set c { s.coros c with state := .suspend k } with currCoro := none }

/-- A coroutine ends, with an error or without. -/
def finish (c : CoroId) (state : CoroState K) : Scheduler K :=
  { s.set c { s.coros c with state := state } with currCoro := none }

def shield (c : CoroId) (shielded : Bool) : Scheduler K :=
  s.set c { s.coros c with shielded := shielded }

/-- One turn of the loop of `reschedule`: the first of the queue goes on, where it
still has something to go on with. -/
def reschedule (lane : Lane) : Scheduler K :=
  match s.runLater lane with
  | [] => s
  | c :: rest =>
    let s := { s with runLater := Function.update s.runLater lane rest }
    let s := s.set c { s.coros c with ready := false }
    match (s.coros c).state with
    | .suspend _ => { s.set c { s.coros c with state := .running } with currCoro := some c }
    | _ => s

/-! ## What each operation changes -/

variable {s : Scheduler K} {c d : CoroId}

theorem wake_coros : (s.wake c).coros = Function.update s.coros c { s.coros c with ready := true } := by
  rw [wake]
  split
  · rename_i h
    rw [← h, Function.update_eq_self]
  · rfl

@[simp] theorem wake_currCoro : (s.wake c).currCoro = s.currCoro := by
  rw [wake]; split <;> rfl

@[simp] theorem wake_coroId : (s.wake c).coroId = s.coroId := by
  rw [wake]; split <;> rfl

/-- Waking changes nothing but that the coroutine is ready. -/
@[simp] theorem wake_state : ((s.wake c).coros d).state = (s.coros d).state := by
  rw [wake_coros]
  by_cases hd : d = c
  · subst hd; rw [Function.update_self]
  · rw [Function.update_of_ne hd]

@[simp] theorem wake_interrupted : ((s.wake c).coros d).interrupted = (s.coros d).interrupted := by
  rw [wake_coros]
  by_cases hd : d = c
  · subst hd; rw [Function.update_self]; rfl
  · rw [Function.update_of_ne hd]

theorem wake_ready : ((s.wake c).coros d).ready = (decide (d = c) || (s.coros d).ready) := by
  rw [wake_coros]
  by_cases hd : d = c
  · subst hd; simp only [Function.update_self, decide_true, Bool.true_or]
  · simp only [Function.update_of_ne hd, hd, decide_false, Bool.false_or]

/-- A cancellation marks a coroutine that has not ended, and wakes it where nothing
shields it. -/
theorem cancel_coros : (s.cancel c).coros = Function.update s.coros c
    (match (s.coros c).state with
      | .done | .fail => s.coros c
      | _ => { s.coros c with
          cancelled := true
          ready := (s.coros c).ready || !(s.coros c).shielded }) := by
  rw [cancel]
  split
  · rename_i h; rw [h, Function.update_eq_self]
  · rename_i h; rw [h, Function.update_eq_self]
  all_goals
    rename_i h
    rw [h]
    dsimp only
    split
    · rename_i hs
      simp only [set, Function.update_self] at hs
      simp only [set, hs, Bool.not_true, Bool.or_false]
    · rename_i hs
      simp only [set, Function.update_self] at hs
      rw [wake_coros]
      simp only [set, Function.update_self, Function.update_idem, hs, Bool.not_false, Bool.or_true]

@[simp] theorem cancel_currCoro : (s.cancel c).currCoro = s.currCoro := by
  rw [cancel]
  split
  · rfl
  · rfl
  all_goals
    dsimp only
    split
    · rfl
    · rw [wake_currCoro]; rfl

@[simp] theorem cancel_coroId : (s.cancel c).coroId = s.coroId := by
  rw [cancel]
  split
  · rfl
  · rfl
  all_goals
    dsimp only
    split
    · rfl
    · rw [wake_coroId]; rfl

@[simp] theorem reschedule_coroId {l : Lane} : (s.reschedule l).coroId = s.coroId := by
  rw [reschedule]
  split
  · rfl
  · dsimp only
    split <;> rfl

/-- Of a round only the first of the queue knows. -/
theorem reschedule_other {l : Lane} {rest : List CoroId} (hqueue : s.runLater l = c :: rest) (hd : d ≠ c) :
    (s.reschedule l).coros d = s.coros d := by
  rw [reschedule, hqueue]
  dsimp only
  split <;> simp only [set, Function.update_of_ne hd]

theorem reschedule_first {l : Lane} {rest : List CoroId} (hqueue : s.runLater l = c :: rest) :
    (s.reschedule l).coros c = { s.coros c with
      ready := false
      state := match (s.coros c).state with
        | .suspend _ => .running
        | state => state } := by
  rw [reschedule, hqueue]
  dsimp only
  split
  · rename_i k hk
    simp only [set, Function.update_self] at hk ⊢
    rw [hk]
  · rename_i hne
    simp only [set, Function.update_self] at hne ⊢
    split
    · rename_i k hk
      exact absurd hk (hne k)
    · rfl

/-! ## What a suspended coroutine notices -/

/-- The coroutines that are suspended at `k` stay so. They stay ready, and become
ready only where they are cancelled. -/
structure Keeps (s s' : Scheduler K) (k : K) : Prop where
  state : ∀ c, (s'.coros c).state = .suspend k ↔ (s.coros c).state = .suspend k
  ready : ∀ c, (s.coros c).state = .suspend k → (s.coros c).ready = true → (s'.coros c).ready = true
  woken : ∀ c, (s.coros c).state = .suspend k → (s'.coros c).ready = true →
    (s.coros c).ready = true ∨ (s'.coros c).interrupted = true
  interrupted : ∀ c, (s.coros c).state = .suspend k → (s.coros c).interrupted = true →
    (s'.coros c).interrupted = true
  lane : ∀ c, (s.coros c).state = .suspend k → (s'.coros c).lane = (s.coros c).lane

/-- What happens to a coroutine that is not suspended there. -/
theorem Keeps.update {s s' : Scheduler K} {k : K} {c : CoroId} {x : Coroutine K}
    (hcoros : s'.coros = Function.update s.coros c x) (hold : (s.coros c).state ≠ .suspend k)
    (hnew : x.state ≠ .suspend k) : s.Keeps s' k := by
  have hother : ∀ d, (s.coros d).state = .suspend k → s'.coros d = s.coros d := fun d hd => by
    rw [hcoros, Function.update_of_ne]
    rintro rfl
    exact hold hd
  constructor
  · intro d
    rw [hcoros]
    by_cases hd : d = c
    · subst hd
      rw [Function.update_self]
      exact iff_of_false hnew hold
    · rw [Function.update_of_ne hd]
  · intro d hd hr
    rw [hother d hd]
    exact hr
  · intro d hd hr
    rw [hother d hd] at hr
    exact Or.inl hr
  · intro d hd hi
    rw [hother d hd]
    exact hi
  · intro d hd
    rw [hother d hd]

theorem Keeps.cancel (s : Scheduler K) (c : CoroId) (k : K) : s.Keeps (s.cancel c) k := by
  constructor
  · intro d
    rw [cancel_coros]
    by_cases hd : d = c
    · subst hd
      rw [Function.update_self]
      split <;> rfl
    · rw [Function.update_of_ne hd]
  · intro d hd hr
    rw [cancel_coros]
    by_cases hdc : d = c
    · subst hdc
      simp only [Function.update_self, hd, hr, Bool.true_or]
    · rw [Function.update_of_ne hdc]
      exact hr
  · intro d hd hr
    rw [cancel_coros] at hr ⊢
    by_cases hdc : d = c
    · subst hdc
      simp only [Function.update_self, hd, Bool.or_eq_true, Coroutine.interrupted, Bool.true_and] at hr ⊢
      exact hr
    · rw [Function.update_of_ne hdc] at hr
      exact Or.inl hr
  · intro d hd hi
    rw [cancel_coros]
    by_cases hdc : d = c
    · subst hdc
      simp only [Function.update_self, hd, Coroutine.interrupted, Bool.true_and]
      exact (Bool.and_eq_true_iff.mp hi).2
    · rw [Function.update_of_ne hdc]
      exact hi
  · intro d hd
    rw [cancel_coros]
    by_cases hdc : d = c
    · subst hdc
      simp only [Function.update_self, hd]
    · rw [Function.update_of_ne hdc]

theorem Keeps.wake {s : Scheduler K} {k : K} (hold : (s.coros c).state ≠ .suspend k) :
    s.Keeps (s.wake c) k :=
  .update wake_coros hold hold

/-- Only the first of a queue goes on. -/
theorem Keeps.reschedule {s : Scheduler K} {k : K} {l : Lane} {rest : List CoroId}
    (hqueue : s.runLater l = c :: rest) (hold : (s.coros c).state ≠ .suspend k) :
    s.Keeps (s.reschedule l) k := by
  refine .update (c := c) (x := (s.reschedule l).coros c) (funext fun d => ?_) hold ?_
  · by_cases hd : d = c
    · subst hd; rw [Function.update_self]
    · rw [Function.update_of_ne hd, s.reschedule_other hqueue hd]
  · rw [s.reschedule_first hqueue]
    dsimp only
    split
    · nofun
    · exact hold

/-! ## The run queues -/

/-- The queues hold exactly the coroutines that are ready, each once and in its own
lane, and one coroutine runs at a time. -/
structure Inv (s : Scheduler K) : Prop where
  nodup : ∀ l, (s.runLater l).Nodup
  mem_iff : ∀ l c, c ∈ s.runLater l ↔ (s.coros c).ready = true ∧ (s.coros c).lane = l
  running : ∀ c, (s.coros c).state = .running ↔ s.currCoro = some c
  fresh : ∀ c, s.coroId ≤ c → (s.coros c).state = .done ∧ (s.coros c).ready = false

theorem Inv.empty : (empty : Scheduler K).Inv where
  nodup _ := List.nodup_nil
  mem_iff l c := by simp [Scheduler.empty]
  running c := by simp [Scheduler.empty]
  fresh _ _ := ⟨rfl, rfl⟩

/-- A change of a coroutine that keeps its lane, whether it is ready, and whether
it runs. -/
theorem Inv.set (h : s.Inv) {x : Coroutine K} (hlane : x.lane = (s.coros c).lane)
    (hready : x.ready = (s.coros c).ready) (hstate : x.state = (s.coros c).state) :
    (s.set c x).Inv where
  nodup := h.nodup
  mem_iff l d := by
    rw [Scheduler.set]
    by_cases hd : d = c
    · subst hd
      simp only [Function.update_self, hlane, hready]
      exact h.mem_iff l d
    · simp only [Function.update_of_ne hd]
      exact h.mem_iff l d
  running d := by
    rw [Scheduler.set]
    by_cases hd : d = c
    · subst hd
      simp only [Function.update_self, hstate]
      exact h.running d
    · simp only [Function.update_of_ne hd]
      exact h.running d
  fresh d hle := by
    rw [Scheduler.set]
    by_cases hd : d = c
    · subst hd
      simp only [Function.update_self, hstate, hready]
      exact h.fresh d hle
    · simp only [Function.update_of_ne hd]
      exact h.fresh d hle

/-- A coroutine that is not ready becomes so and is put at the end of its queue. -/
theorem Inv.push (h : s.Inv) (hready : (s.coros c).ready = false) (hc : c < s.coroId) :
    ((s.set c { s.coros c with ready := true }).enqueue c).Inv := by
  have hnot : c ∉ s.runLater (s.coros c).lane := fun hmem => by
    have hr := ((h.mem_iff _ c).mp hmem).1
    rw [hready] at hr
    cases hr
  constructor
  · intro l
    simp only [enqueue, Scheduler.set, Function.update_self]
    by_cases hl : l = (s.coros c).lane
    · subst hl
      rw [Function.update_self]
      exact List.nodup_append.mpr ⟨h.nodup _, List.pairwise_singleton _ c, by
        intro a ha b hb
        rw [List.mem_singleton.mp hb]
        rintro rfl
        exact hnot ha⟩
    · rw [Function.update_of_ne hl]
      exact h.nodup l
  · intro l d
    simp only [enqueue, Scheduler.set, Function.update_self]
    by_cases hd : d = c
    · subst hd
      simp only [Function.update_self, true_and]
      by_cases hl : l = (s.coros d).lane
      · subst hl
        simp
      · rw [Function.update_of_ne hl]
        exact iff_of_false (fun hmem => hl ((h.mem_iff l d).mp hmem).2.symm) (Ne.symm hl)
    · rw [Function.update_of_ne hd]
      by_cases hl : l = (s.coros c).lane
      · subst hl
        rw [Function.update_self, List.mem_append, List.mem_singleton, or_iff_left hd]
        exact h.mem_iff _ d
      · rw [Function.update_of_ne hl]
        exact h.mem_iff l d
  · intro d
    simp only [enqueue, Scheduler.set]
    by_cases hd : d = c
    · subst hd
      simp only [Function.update_self]
      exact h.running d
    · simp only [Function.update_of_ne hd]
      exact h.running d
  · intro d hle
    have hne : d ≠ c := by rintro rfl; exact Nat.lt_irrefl _ (Nat.lt_of_lt_of_le hc hle)
    simp only [enqueue, Scheduler.set, Function.update_of_ne hne]
    exact h.fresh d hle

theorem Inv.wake (h : s.Inv) (hc : c < s.coroId) : (s.wake c).Inv := by
  rw [Scheduler.wake]
  split
  · exact h
  · exact h.push (Bool.not_eq_true _ ▸ ‹¬_›) hc

/-- A coroutine that has not ended was spawned. -/
theorem Inv.spawned (h : s.Inv) (hstate : (s.coros c).state ≠ .done) : c < s.coroId :=
  Nat.lt_of_not_le fun hle => hstate (h.fresh c hle).1

theorem Inv.cancel (h : s.Inv) : (s.cancel c).Inv := by
  rw [Scheduler.cancel]
  split
  · exact h
  · exact h
  all_goals
    rename_i hstate
    have hset : (s.set c { s.coros c with cancelled := true }).Inv := h.set rfl rfl rfl
    dsimp only
    split
    · exact hset
    · exact hset.wake (h.spawned (c := c) (by rw [hstate]; nofun))

theorem Inv.spawnOwned (h : s.Inv) (lane : Lane) (k : K) : (s.spawnOwned lane k).Inv := by
  -- the coroutine is first put down as not ready, under its new lane
  let x : Coroutine K := ⟨lane, .suspend k, true, false, false⟩
  have hfresh := h.fresh s.coroId (Nat.le_refl _)
  have hnone : ∀ l, s.coroId ∉ s.runLater l := fun l hmem => by
    have hr := ((h.mem_iff l _).mp hmem).1
    rw [hfresh.2] at hr
    cases hr
  have hset : ({ s with coroId := s.coroId + 1 }.set s.coroId x).Inv := by
    constructor
    · exact h.nodup
    · intro l d
      simp only [Scheduler.set]
      by_cases hd : d = s.coroId
      · subst hd
        simp only [Function.update_self, x]
        exact iff_of_false (hnone l) (fun hr => nomatch hr.1)
      · simp only [Function.update_of_ne hd]
        exact h.mem_iff l d
    · intro d
      simp only [Scheduler.set]
      by_cases hd : d = s.coroId
      · subst hd
        simp only [Function.update_self, x]
        refine iff_of_false nofun fun hcurr => ?_
        have hrun := (h.running _).mpr hcurr
        rw [hfresh.1] at hrun
        cases hrun
      · simp only [Function.update_of_ne hd]
        exact h.running d
    · intro d hle
      have hlt : s.coroId < d := hle
      simp only [Scheduler.set, Function.update_of_ne (Nat.ne_of_gt hlt)]
      exact h.fresh d (Nat.le_of_lt hlt)
  have hpush := hset.push (c := s.coroId) (by simp [Scheduler.set, x]) (Nat.lt_succ_self _)
  simp only [Scheduler.set, Function.update_self, Function.update_idem, x] at hpush
  exact hpush

/-- The running coroutine suspends or ends. -/
theorem Inv.leave (h : s.Inv) (hcurr : s.currCoro = some c) {state : CoroState K}
    (hstate : state ≠ .running) : (s.finish c state).Inv := by
  have hrun := (h.running c).mpr hcurr
  constructor
  · exact h.nodup
  · intro l d
    simp only [finish, Scheduler.set]
    by_cases hd : d = c
    · subst hd
      simp only [Function.update_self]
      exact h.mem_iff l d
    · simp only [Function.update_of_ne hd]
      exact h.mem_iff l d
  · intro d
    simp only [finish, Scheduler.set]
    by_cases hd : d = c
    · subst hd
      simp only [Function.update_self]
      exact iff_of_false hstate nofun
    · simp only [Function.update_of_ne hd]
      refine iff_of_false (fun hr => hd ?_) nofun
      exact Option.some.inj (((h.running d).mp hr).symm.trans hcurr)
  · intro d hle
    have hne : d ≠ c := by
      rintro rfl
      have hdone := (h.fresh d hle).1
      rw [hrun] at hdone
      cases hdone
    simp only [finish, Scheduler.set, Function.update_of_ne hne]
    exact h.fresh d hle

/-- The first of a queue is taken out; it runs where it has something to go on with. -/
theorem Inv.reschedule (h : s.Inv) (hcurr : s.currCoro = none) (l : Lane) : (s.reschedule l).Inv := by
  rw [Scheduler.reschedule]
  split
  · exact h
  · rename_i c rest hqueue
    have hmem : c ∈ s.runLater l := by rw [hqueue]; exact List.mem_cons_self ..
    obtain ⟨hready, hlane⟩ := (h.mem_iff l c).mp hmem
    have hnodup := h.nodup l
    rw [hqueue, List.nodup_cons] at hnodup
    have hnorun : ∀ d, (s.coros d).state ≠ .running := fun d hr => by
      have hd := (h.running d).mp hr
      rw [hcurr] at hd
      cases hd
    have hspawned : c < s.coroId := by
      refine Nat.lt_of_not_le fun hle => ?_
      have hr := (h.fresh c hle).2
      rw [hready] at hr
      cases hr
    have hpop : ({ s with runLater := Function.update s.runLater l rest }.set c
        { s.coros c with ready := false }).Inv := by
      constructor
      · intro l'
        simp only [Scheduler.set]
        by_cases hl : l' = l
        · subst hl
          rw [Function.update_self]
          exact hnodup.2
        · rw [Function.update_of_ne hl]
          exact h.nodup l'
      · intro l' d
        simp only [Scheduler.set]
        by_cases hd : d = c
        · subst hd
          rw [Function.update_self]
          refine iff_of_false (fun hin => ?_) (fun hr => nomatch hr.1)
          by_cases hl : l' = l
          · subst hl
            rw [Function.update_self] at hin
            exact hnodup.1 hin
          · rw [Function.update_of_ne hl] at hin
            exact hl (((h.mem_iff l' d).mp hin).2.symm.trans hlane)
        · rw [Function.update_of_ne hd]
          by_cases hl : l' = l
          · subst hl
            rw [Function.update_self, ← h.mem_iff l' d, hqueue, List.mem_cons, or_iff_right hd]
          · rw [Function.update_of_ne hl]
            exact h.mem_iff l' d
      · intro d
        simp only [Scheduler.set]
        by_cases hd : d = c
        · subst hd
          simp only [Function.update_self]
          exact h.running d
        · simp only [Function.update_of_ne hd]
          exact h.running d
      · intro d hle
        have hne : d ≠ c := Nat.ne_of_gt (Nat.lt_of_lt_of_le hspawned hle)
        simp only [Scheduler.set, Function.update_of_ne hne]
        exact h.fresh d hle
    dsimp only
    split
    · constructor
      · exact hpop.nodup
      · intro l' d
        have hd := hpop.mem_iff l' d
        simp only [Scheduler.set, Function.update_self, Function.update_idem] at hd ⊢
        by_cases hdc : d = c
        · subst hdc
          simp only [Function.update_self] at hd ⊢
          exact hd
        · simp only [Function.update_of_ne hdc] at hd ⊢
          exact hd
      · intro d
        simp only [Scheduler.set, Function.update_self, Function.update_idem]
        by_cases hdc : d = c
        · subst hdc
          simp only [Function.update_self]
        · simp only [Function.update_of_ne hdc]
          exact iff_of_false (hnorun d) fun heq => hdc (Option.some.inj heq).symm
      · intro d hle
        have hne : d ≠ c := Nat.ne_of_gt (Nat.lt_of_lt_of_le hspawned hle)
        simp only [Scheduler.set, Function.update_of_ne hne]
        exact h.fresh d hle
    · exact hpop

end Scheduler

end Moonbit

end WitBindgen
