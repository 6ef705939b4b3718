import WitBindgen.Rt.Executor
import Mathlib.Data.List.Infix
import Mathlib.Data.List.Nodup
import Mathlib.Data.List.Perm.Subperm

/-!
# Spawned futures

`spawn.rs`: `spawn_local` puts a future into one list for the whole component, and the
task whose `FuturesUnordered` returns next takes all that is in the list. In `Executor`
the futures are counted; here they are told apart by the task in which they were spawned.
Code runs between any two steps: of the futures of a task that is polled, of other
tasks, and of synchronous exports.

A `FuturesUnordered` polls the futures of its queue in order, each future at most once in
the queue. A call of its `poll_next` ends with a future that is finished, with an empty
queue, when it has begun as many polls as there were futures, or when two polls have left
a future that woke itself.
-/

namespace WitBindgen

namespace Rt

namespace Spawn

/-- A future, and the task that ran when it was made, if one did. -/
structure Future where
  id : Nat
  origin : Option Ptr
deriving DecidableEq

/-- A call of `FuturesUnordered::poll_next`: how many futures there were when it began, the
polls that have begun, those that have left a future that was woken meanwhile, the future
that is polled now, and whether that was woken. -/
structure Call where
  len : Nat
  polls : Nat
  yielded : Nat
  current : Option Future
  woken : Bool
deriving DecidableEq

inductive Phase where
  | absent
  /-- New, or `poll_next` has returned `Pending`. -/
  | waiting
  | polling (call : Call)
  | ready
  /-- The host has cancelled the task. -/
  | dropped
deriving DecidableEq

/-- `Tasks`: the futures and the queue of the `FuturesUnordered`, with those that were polled
so far. -/
structure Tasks where
  phase : Phase
  futures : List Future
  ready : List Future
  polled : List Future

/-- What `poll_next_unpin` of a `FuturesUnordered` returns. -/
inductive Inner where
  | pending
  | none
  | finished

/-- `spawned` is the list `SPAWNED`, `created` every future so far. -/
structure State where
  spawned : List Future
  task : Ptr → Tasks
  finished : List Future
  created : List Future

inductive Event where
  | new (t : Ptr) (id : Nat)
  /-- `poll_next` is called. -/
  | enter (t : Ptr)
  /-- The waker of a future is invoked. -/
  | wake (t : Ptr) (f : Future)
  /-- `FuturesUnordered` takes the next future from its queue. -/
  | next (t : Ptr)
  /-- The poll of a future ends. -/
  | polled (t : Ptr) (ready : Bool)
  /-- `spawn_local` is called, by a future of a task that is polled or by other code. -/
  | spawn (caller : Option Ptr) (id : Nat)
  /-- The host cancels the task, and its futures are destroyed. -/
  | cancel (t : Ptr)

namespace Call

/-- The polls that have left a woken future, when the one of now leaves its own pending. -/
def yields (c : Call) : Nat := c.yielded + if c.woken then 1 else 0

end Call

namespace Tasks

variable (x : Tasks)

def current : Option Future :=
  match x.phase with
  | .polling c => c.current
  | _ => none

def Polling : Prop := ∃ c, x.phase = .polling c

/-- A call of `FuturesUnordered::poll_next` begins. -/
def enter : Tasks := { x with phase := .polling ⟨x.futures.length, 0, 0, none, false⟩ }

/-- A future that is woken goes to the end of the queue, unless it is there. -/
def wake (f : Future) : Tasks :=
  { x with
    ready := if f ∈ x.ready then x.ready else x.ready ++ [f]
    phase := match x.phase with
      | .polling c => .polling { c with woken := c.woken || decide (c.current = some f) }
      | phase => phase }

/-- A future that is finished is passed over from now on. -/
def finish (f : Future) : Tasks :=
  { x with futures := x.futures.filter (· ≠ f), ready := x.ready.filter (· ≠ f) }

/-- `self.tasks.extend`. -/
def extend (fs : List Future) : Tasks := { x with futures := x.futures ++ fs, ready := x.ready ++ fs }

end Tasks

namespace State

variable (s : State)

def setTask (t : Ptr) (x : Tasks) : State := { s with task := Function.update s.task t x }

/-- `poll_next` returns into the callback, with the assertions that follow there. -/
def returned (t : Ptr) (x : Tasks) (ready : Bool) : Except String State :=
  if ready then
    if x.futures = [] then .ok (s.setTask t { x with phase := .ready })
    else .error "assertion failed: me.tasks.is_empty()"
  else if x.futures = [] then .error "assertion failed: !me.tasks.is_empty()"
  else .ok (s.setTask t { x with phase := .waiting })

/-- A turn of the loop, from where `FuturesUnordered` has returned: what was spawned goes to the
task. -/
def pollNext (t : Ptr) (x : Tasks) (r : Inner) : Except String State :=
  let x := x.extend s.spawned
  let s' := { s with spawned := [] }
  match r with
  | .pending => if s.spawned = [] then s'.returned t x false else .ok (s'.setTask t x.enter)
  | .none => if s.spawned = [] then s'.returned t x true else .error "assertion failed: !spawned"
  | .finished => .ok (s'.setTask t x.enter)

/-- A turn of the loop of `FuturesUnordered`. -/
def next (t : Ptr) (c : Call) : Except String State :=
  let x := s.task t
  match x.ready with
  | [] => s.pollNext t x (if x.futures = [] then .none else .pending)
  | f :: rest =>
    .ok (s.setTask t { x with
      ready := rest
      polled := f :: x.polled
      phase := .polling { c with polls := c.polls + 1, current := some f, woken := false } })

def polled (t : Ptr) (c : Call) (f : Future) (ready : Bool) : Except String State :=
  let x := s.task t
  if ready then { s with finished := f :: s.finished }.pollNext t (x.finish f) .finished
  else if 2 ≤ c.yields ∨ c.polls = c.len then s.pollNext t x .pending
  else .ok (s.setTask t { x with
    phase := .polling { c with yielded := c.yields, current := none, woken := false } })

def exec : Event → Except String State
  | .new t id =>
    let f : Future := ⟨id, some t⟩
    .ok { s.setTask t ⟨.waiting, [f], [f], []⟩ with created := f :: s.created }
  | .enter t => .ok (s.setTask t (s.task t).enter)
  | .wake t f => .ok (s.setTask t ((s.task t).wake f))
  | .next t =>
    match (s.task t).phase with
    | .polling c => s.next t c
    | _ => .ok s
  | .polled t ready =>
    match (s.task t).phase with
    | .polling c =>
      match c.current with
      | some f => s.polled t c f ready
      | none => .ok s
    | _ => .ok s
  | .spawn caller id =>
    .ok { s with spawned := s.spawned ++ [⟨id, caller⟩], created := ⟨id, caller⟩ :: s.created }
  | .cancel t => .ok (s.setTask t { s.task t with phase := .dropped, futures := [], ready := [] })

/-- Futures are told apart by their numbers. A future that spawns is one that is polled. -/
def allowed : Event → Prop
  | .new t id => (s.task t).phase = .absent ∧ ∀ f ∈ s.created, f.id ≠ id
  | .enter t | .cancel t => (s.task t).phase = .waiting ∨ (s.task t).phase = .ready
  | .wake t f => f ∈ (s.task t).futures
  | .next t => (s.task t).Polling ∧ (s.task t).current = none
  | .polled t _ => (s.task t).current ≠ none
  | .spawn caller id => (∀ f ∈ s.created, f.id ≠ id) ∧ ∀ t ∈ caller, (s.task t).current ≠ none

/-- The task whose `FuturesUnordered` returns in the step. -/
def ends : Event → Option Ptr
  | .next t => if (s.task t).ready = [] then some t else none
  | .polled t ready =>
    match (s.task t).phase with
    | .polling c => if ready ∨ 2 ≤ c.yields ∨ c.polls = c.len then some t else none
    | _ => none
  | _ => none

/-- In the step a second future of one call is left pending that was woken while it was polled. -/
def Yields (t : Ptr) (e : Event) : Prop :=
  e = .polled t false ∧ ∃ c, (s.task t).phase = .polling c ∧ 2 ≤ c.yields

end State

/-- The runs whose steps meet `ok`. -/
def runs (ok : State → Event → Prop) : System State Event String where
  init s := s = ⟨[], fun _ => ⟨.absent, [], [], []⟩, [], []⟩
  allowed s e := s.allowed e ∧ ok s e
  exec s e := s.exec e

/-- What becomes of spawned futures. -/
structure Kept (ok : State → Event → Prop) (s : State) : Prop where
  /-- A task holds, and so polls, only what was spawned in it. -/
  own : ∀ t, ∀ f ∈ (s.task t).futures, f.origin = some t
  /-- A future is finished, with its task, or about to get there. -/
  lost : ∀ f ∈ s.created, f ∈ s.finished ∨ ∃ t, f.origin = some t ∧
    (f ∈ (s.task t).futures ∨ (f ∈ s.spawned ∧ (s.task t).Polling))
  /-- What was never polled is in the queue. -/
  queued : ∀ t, ∀ f ∈ (s.task t).futures, f ∉ (s.task t).polled → f ∈ (s.task t).ready
  /-- `poll_next` returns `Pending` when nothing is spawned and everything was polled. -/
  pending : ∀ e t s', s.allowed e → ok s e → s.exec e = .ok s' → t ∈ s.ends e →
    (s'.task t).phase = .waiting →
      s'.spawned = [] ∧ ∀ f ∈ (s'.task t).futures, f ∈ (s'.task t).polled
  steps : ∀ e, s.allowed e → ok s e → ∃ s', s.exec e = .ok s'

/-- Futures are spawned in a task that is polled, and when its `FuturesUnordered` returns
nothing but these is in the list. Where a second future has woken itself, nothing in the queue
is still to be polled for the first time. No task is cancelled that has futures left. -/
structure InTask (s : State) (e : Event) : Prop where
  spawns : ∀ id, e ≠ .spawn none id
  takes : ∀ t ∈ s.ends e, ∀ f ∈ s.spawned, f.origin = some t
  yields : ∀ t, s.Yields t e → ∀ f ∈ (s.task t).ready, f ∈ (s.task t).polled
  cancels : ∀ t, e = .cancel t → (s.task t).futures = []

/-! ## The queue -/

/-- The queue has no future twice, and those that were never polled are in it. -/
structure Tasks.Queued (x : Tasks) : Prop where
  nodup : x.ready.Nodup
  held : ∀ f ∈ x.ready, f ∈ x.futures
  queued : ∀ f ∈ x.futures, f ∉ x.polled → f ∈ x.ready

/-- The polls that a call may still begin. -/
def Call.left (c : Call) : Nat := c.len - c.polls

/-- What was never polled has its turn in the call that is under way. -/
structure Tasks.Fair (x : Tasks) : Prop extends x.Queued where
  ahead : ∀ c, x.phase = .polling c → ∀ f ∈ x.futures, f ∉ x.polled → f ∈ x.ready.take c.left
  current : ∀ f ∈ x.current, f ∈ x.futures ∧ f ∈ x.polled

variable {x : Tasks} {c : Call} {f : Future} {fs : List Future}

theorem current_of_phase (h : x.phase = .polling c) : x.current = c.current := by
  rw [Tasks.current, h]

theorem current_ne_polling (h : x.current ≠ none) : x.Polling := by
  rw [Tasks.current] at h
  split at h
  · next c hc => exact ⟨c, hc⟩
  · exact absurd rfl h

/-- Where no call is under way. -/
theorem Tasks.Queued.fair (h : x.Queued) (hphase : ¬ x.Polling) : x.Fair where
  toQueued := h
  ahead c hc := absurd ⟨c, hc⟩ hphase
  current f hf := by
    refine absurd (current_ne_polling ?_) hphase
    rw [Option.mem_def.mp hf]
    exact Option.some_ne_none f

/-- A new call has turns for the whole queue. -/
theorem Tasks.Queued.enter (h : x.Queued) : x.enter.Fair where
  nodup := h.nodup
  held := h.held
  queued := h.queued
  ahead c hc f hf hnew := by
    obtain rfl := Phase.polling.inj hc
    have hlen : x.ready.length ≤ x.futures.length := (h.nodup.subperm h.held).length_le
    rw [Call.left, Nat.sub_zero]
    exact (List.take_of_length_le hlen).symm ▸ h.queued f hf hnew
  current _ hf := by cases hf

theorem Tasks.Queued.extend (h : x.Queued) (hnodup : fs.Nodup) (hnew : ∀ f ∈ fs, f ∉ x.futures) :
    (x.extend fs).Queued where
  nodup := h.nodup.append hnodup fun f hf hfs => hnew f hfs (h.held f hf)
  held f hf := by
    rcases List.mem_append.mp hf with hf | hf
    · exact List.mem_append_left _ (h.held f hf)
    · exact List.mem_append_right _ hf
  queued f hf hpolled := by
    rcases List.mem_append.mp hf with hf | hf
    · exact List.mem_append_left _ (h.queued f hf hpolled)
    · exact List.mem_append_right _ hf

theorem Tasks.Queued.finish (h : x.Queued) (f : Future) : (x.finish f).Queued where
  nodup := h.nodup.filter _
  held g hg := by
    obtain ⟨hmem, hne⟩ := List.mem_filter.mp hg
    exact List.mem_filter.mpr ⟨h.held g hmem, hne⟩
  queued g hg hnew := by
    obtain ⟨hmem, hne⟩ := List.mem_filter.mp hg
    exact List.mem_filter.mpr ⟨h.queued g hmem hnew, hne⟩

theorem Tasks.Queued.wake (h : x.Queued) (hf : f ∈ x.futures) : (x.wake f).Queued := by
  by_cases hready : f ∈ x.ready
  · exact ⟨by simpa [Tasks.wake, hready] using h.nodup, by simpa [Tasks.wake, hready] using h.held,
      by simpa [Tasks.wake, hready] using h.queued⟩
  · refine ⟨?_, fun g hg => ?_, fun g hg hnew => ?_⟩
    · simpa [Tasks.wake, hready, List.nodup_append] using ⟨h.nodup, fun g hg heq => hready (heq ▸ hg)⟩
    · have hg' : g ∈ x.ready ∨ g = f := by simpa [Tasks.wake, hready] using hg
      rcases hg' with hg' | rfl
      · exact h.held g hg'
      · exact hf
    · have hqueued := h.queued g hg hnew
      simp only [Tasks.wake, if_neg hready]
      exact List.mem_append_left _ hqueued

theorem prefix_wake (x : Tasks) (f : Future) : x.ready <+: (x.wake f).ready := by
  simp only [Tasks.wake]
  split
  · exact List.prefix_rfl
  · exact List.prefix_append ..

theorem wake_phase (h : (x.wake f).phase = .polling c) : ∃ c', x.phase = .polling c' ∧
    c.left = c'.left ∧ c.current = c'.current := by
  simp only [Tasks.wake] at h
  split at h
  · next c' hc =>
    cases h
    exact ⟨c', hc, rfl, rfl⟩
  · next hno => exact absurd h (hno c)

theorem Tasks.Fair.wake (h : x.Fair) (hf : f ∈ x.futures) : (x.wake f).Fair where
  toQueued := h.toQueued.wake hf
  ahead c hc g hg hnew := by
    obtain ⟨c', hc', hleft, -⟩ := wake_phase hc
    rw [hleft]
    exact ((prefix_wake x f).take c'.left).subset (h.ahead c' hc' g hg hnew)
  current g hg := by
    have hpolling : (x.wake f).Polling := current_ne_polling (by rw [Option.mem_def.mp hg]; exact Option.some_ne_none g)
    obtain ⟨c, hc⟩ := hpolling
    obtain ⟨c', hc', -, hcurrent⟩ := wake_phase hc
    refine h.current g ?_
    rw [current_of_phase hc', ← hcurrent, ← current_of_phase hc]
    exact hg

/-- The first of the queue has its turn. -/
theorem Tasks.Fair.next (h : x.Fair) (hphase : x.phase = .polling c) {rest : List Future}
    (hready : x.ready = f :: rest) : Tasks.Fair { x with
      ready := rest
      polled := f :: x.polled
      phase := .polling { c with polls := c.polls + 1, current := some f, woken := false } } := by
  have hnodup := h.nodup
  have hheld := h.held
  rw [hready] at hnodup hheld
  have htail : ∀ g ∈ x.futures, g ∉ f :: x.polled → g ∈ rest.take (c.len - (c.polls + 1)) := by
    intro g hg hnew
    rw [List.mem_cons, not_or] at hnew
    have hmem := h.ahead c hphase g hg hnew.2
    rw [hready, Call.left] at hmem
    cases hleft : c.len - c.polls with
    | zero =>
      rw [hleft] at hmem
      cases hmem
    | succ n =>
      rw [hleft, List.take_succ_cons] at hmem
      have hn : c.len - (c.polls + 1) = n := by omega
      rw [hn]
      exact (List.mem_cons.mp hmem).resolve_left hnew.1
  refine ⟨⟨(List.nodup_cons.mp hnodup).2, fun g hg => hheld g (List.mem_cons_of_mem _ hg),
    fun g hg hnew => List.mem_of_mem_take (htail g hg hnew)⟩, fun c' hc' g hg hnew => ?_, fun g hg => ?_⟩
  · obtain rfl := Phase.polling.inj hc'
    exact htail g hg hnew
  · obtain rfl : f = g := Option.some.inj hg
    exact ⟨hheld f List.mem_cons_self, List.mem_cons_self⟩

/-- A poll ends, and the call goes on. -/
theorem Tasks.Fair.yield (h : x.Fair) (hphase : x.phase = .polling c) (n : Nat) :
    Tasks.Fair { x with phase := .polling { c with yielded := n, current := none, woken := false } } where
  nodup := h.nodup
  held := h.held
  queued := h.queued
  ahead c' hc' := by
    obtain rfl := Phase.polling.inj hc'
    exact h.ahead c hphase
  current _ hf := by cases hf

/-- When all turns are taken everything was polled. -/
theorem Tasks.Fair.all_polled (h : x.Fair) (hphase : x.phase = .polling c)
    (hdone : x.ready = [] ∨ c.polls = c.len) : ∀ f ∈ x.futures, f ∈ x.polled := by
  intro f hf
  by_contra hnew
  have hmem := h.ahead c hphase f hf hnew
  rcases hdone with hready | hpolls
  · rw [hready, List.take_nil] at hmem
    cases hmem
  · rw [Call.left, hpolls, Nat.sub_self] at hmem
    cases hmem

/-! ## Each step -/

structure Inv (s : State) : Prop where
  own : ∀ t, ∀ f ∈ (s.task t).futures, f.origin = some t
  fair : ∀ t, (s.task t).Fair
  waits : ∀ f ∈ s.spawned, ∃ t, f.origin = some t ∧ (s.task t).Polling ∧ (s.task t).futures ≠ []
  created : ∀ f ∈ s.created, f ∈ s.finished ∨ f ∈ s.spawned ∨
    ∃ t, f.origin = some t ∧ f ∈ (s.task t).futures
  known : ∀ f, f ∈ s.spawned ∨ (∃ t, f ∈ (s.task t).futures) → f ∈ s.created
  nodup : s.spawned.Nodup
  apart : ∀ f ∈ s.spawned, ∀ t, f ∉ (s.task t).futures
  absent : ∀ t, (s.task t).phase = .absent → (s.task t).futures = []

variable {s s' : State} {t : Ptr}

@[simp] theorem setTask_self (s : State) (t : Ptr) (x : Tasks) : (s.setTask t x).task t = x :=
  Function.update_self ..

theorem setTask_of_ne {t' : Ptr} (x : Tasks) (h : t' ≠ t) : (s.setTask t x).task t' = s.task t' :=
  Function.update_of_ne h ..

/-- What is said of all tasks, where one has changed. -/
theorem forall_setTask {P : Ptr → Tasks → Prop} (hself : P t x) (hother : ∀ t', P t' (s.task t')) :
    ∀ t', P t' ((s.setTask t x).task t') := by
  intro t'
  by_cases heq : t' = t
  · subst heq
    rw [setTask_self]
    exact hself
  · rw [setTask_of_ne x heq]
    exact hother t'

/-- A change of a task that keeps its futures, while it is polled or nothing is spawned. -/
theorem Inv.setTask (h : Inv s) (hfutures : x.futures = (s.task t).futures) (hfair : x.Fair)
    (hphase : s.spawned = [] ∨ ((s.task t).Polling → x.Polling))
    (habsent : x.phase ≠ .absent) : Inv (s.setTask t x) where
  own := forall_setTask (P := fun t x => ∀ f ∈ x.futures, f.origin = some t)
    (by rw [hfutures]; exact h.own t) h.own
  fair := forall_setTask (P := fun _ x => x.Fair) hfair h.fair
  waits f hf := by
    obtain ⟨t', horigin, hpolling, hne⟩ := h.waits f hf
    refine ⟨t', horigin, ?_⟩
    by_cases heq : t' = t
    · subst heq
      rw [setTask_self, hfutures]
      -- the task that spawned is polled still
      rcases hphase with hnone | hphase
      · have hf' : f ∈ s.spawned := hf
        rw [hnone] at hf'
        cases hf'
      · exact ⟨hphase hpolling, hne⟩
    · rw [setTask_of_ne x heq]
      exact ⟨hpolling, hne⟩
  created f hf := by
    refine (h.created f hf).imp_right (Or.imp_right ?_)
    rintro ⟨t', horigin, hmem⟩
    exact ⟨t', horigin, forall_setTask (P := fun t' x => f ∈ (s.task t').futures → f ∈ x.futures)
      (by rw [hfutures]; exact id) (fun _ => id) t' hmem⟩
  known f hf := by
    refine h.known f (hf.imp_right ?_)
    rintro ⟨t', hmem⟩
    exact ⟨t', forall_setTask (P := fun t' x => f ∈ x.futures → f ∈ (s.task t').futures)
      (by rw [hfutures]; exact id) (fun _ => id) t' hmem⟩
  nodup := h.nodup
  apart f hf := forall_setTask (P := fun _ x => f ∉ x.futures) (by rw [hfutures]; exact h.apart f hf t)
    (h.apart f hf)
  absent := forall_setTask (P := fun _ x => x.phase = .absent → x.futures = [])
    (fun habs => absurd habs habsent) h.absent

theorem Inv.new (h : Inv s) (hphase : (s.task t).phase = .absent) {id : Nat}
    (hid : ∀ f ∈ s.created, f.id ≠ id) :
    Inv { s.setTask t ⟨.waiting, [⟨id, some t⟩], [⟨id, some t⟩], []⟩ with
      created := ⟨id, some t⟩ :: s.created } := by
  have hnew : (⟨id, some t⟩ : Future) ∉ s.created := fun hmem => hid _ hmem rfl
  have hfair : Tasks.Fair ⟨.waiting, [⟨id, some t⟩], [⟨id, some t⟩], []⟩ :=
    Tasks.Queued.fair ⟨List.nodup_singleton _, fun _ hf => hf, fun _ hf _ => hf⟩
      (by rintro ⟨c, hc⟩; cases hc)
  -- what is spawned or known belongs to another task
  have hother : ∀ t', (s.task t').futures ≠ [] → t' ≠ t := by
    rintro t' hne rfl
    exact hne (h.absent t' hphase)
  refine ⟨?_, ?_, fun f hf => ?_, fun f hf => ?_, fun f hf => ?_, h.nodup, fun f hf => ?_, ?_⟩
  · refine forall_setTask (P := fun t x => ∀ f ∈ x.futures, f.origin = some t) ?_ h.own
    intro f hf
    rw [List.mem_singleton.mp hf]
  · exact forall_setTask (P := fun _ x => x.Fair) hfair h.fair
  · obtain ⟨t', horigin, hpolling, hne⟩ := h.waits f hf
    refine ⟨t', horigin, ?_⟩
    show ((s.setTask t _).task t').Polling ∧ _
    rw [setTask_of_ne _ (hother t' hne)]
    exact ⟨hpolling, hne⟩
  · rcases List.mem_cons.mp hf with rfl | hf
    · exact .inr (.inr ⟨t, rfl, by simp⟩)
    · refine (h.created f hf).imp_right (Or.imp_right ?_)
      rintro ⟨t', horigin, hmem⟩
      refine ⟨t', horigin, ?_⟩
      show f ∈ ((s.setTask t _).task t').futures
      rw [setTask_of_ne _ (hother t' (List.ne_nil_of_mem hmem))]
      exact hmem
  · rcases hf with hf | ⟨t', hmem⟩
    · exact List.mem_cons_of_mem _ (h.known f (.inl hf))
    · revert hmem
      exact forall_setTask (P := fun _ x => f ∈ x.futures → f ∈ (⟨id, some t⟩ : Future) :: s.created)
        (fun hf => by rw [List.mem_singleton.mp hf]; exact List.mem_cons_self)
        (fun t' hmem => List.mem_cons_of_mem _ (h.known f (.inr ⟨t', hmem⟩))) t'
  · have hknown : f ∈ s.created := h.known f (.inl hf)
    refine forall_setTask (P := fun _ x => f ∉ x.futures) (fun hmem => ?_) (h.apart f hf)
    rw [List.mem_singleton.mp hmem] at hknown
    exact hnew hknown
  · exact forall_setTask (P := fun _ x => x.phase = .absent → x.futures = []) nofun h.absent

/-- The task takes what was spawned in it, and may have finished a future. -/
theorem Inv.take {fs : List Future} (h : Inv s)
    (hown : ∀ f ∈ s.spawned, f.origin = some t) (hfair : x.Fair)
    (hfutures : ∀ f, f ∈ x.futures ↔ (f ∈ (s.task t).futures ∧ f ∉ fs) ∨ f ∈ s.spawned)
    (habsent : x.phase ≠ .absent) :
    Inv ({ s with spawned := [], finished := fs ++ s.finished } |>.setTask t x) where
  own := by
    refine forall_setTask (P := fun t x => ∀ f ∈ x.futures, f.origin = some t) (fun f hf => ?_) h.own
    rcases (hfutures f).mp hf with ⟨hmem, -⟩ | hmem
    · exact h.own t f hmem
    · exact hown f hmem
  fair := forall_setTask (P := fun _ x => x.Fair) hfair h.fair
  waits f hf := by cases hf
  created f hf := by
    -- a future is finished, or waits to be taken, or is in a list
    rcases h.created f hf with hmem | hmem | ⟨t', horigin, hmem⟩
    · exact .inl (List.mem_append_right _ hmem)
    · exact .inr (.inr ⟨t, hown f hmem, by rw [setTask_self, hfutures]; exact .inr hmem⟩)
    · by_cases hfs : f ∈ fs
      · exact .inl (List.mem_append_left _ hfs)
      · refine .inr (.inr ⟨t', horigin, ?_⟩)
        exact forall_setTask (s := { s with spawned := [], finished := fs ++ s.finished })
          (P := fun t' x => f ∈ (s.task t').futures → f ∈ x.futures)
          (fun hmem => (hfutures f).mpr (.inl ⟨hmem, hfs⟩)) (fun _ => id) t' hmem
  known f hf := by
    rcases hf with hf | ⟨t', hmem⟩
    · cases hf
    · revert hmem
      refine forall_setTask (P := fun _ x => f ∈ x.futures → f ∈ s.created) (fun hf => ?_)
        (fun t' hmem => h.known f (.inr ⟨t', hmem⟩)) t'
      rcases (hfutures f).mp hf with ⟨hmem, -⟩ | hmem
      · exact h.known f (.inr ⟨t, hmem⟩)
      · exact h.known f (.inl hmem)
  nodup := List.nodup_nil
  apart f hf := by cases hf
  absent := forall_setTask (P := fun _ x => x.phase = .absent → x.futures = [])
    (fun habs => absurd habs habsent) h.absent

/-- The assertions of the callback hold. -/
theorem returned_ok {ready : Bool} (hready : ready = true ↔ x.futures = []) :
    s.returned t x ready = .ok (s.setTask t { x with phase := if ready then .ready else .waiting }) := by
  rw [State.returned]
  cases ready with
  | true => rw [if_pos rfl, if_pos (hready.mp rfl), if_pos rfl]
  | false =>
    have hne : x.futures ≠ [] := fun hempty => Bool.noConfusion (hready.mpr hempty)
    rw [if_neg Bool.false_ne_true, if_neg hne, if_neg Bool.false_ne_true]

/-- A turn of the loop of `poll_next` in which the task takes what is its own. -/
theorem Inv.pollNext {r : Inner} (fs : List Future) (h : Inv s) (hown : ∀ f ∈ s.spawned, f.origin = some t)
    (hx : x.Queued) (hfutures : ∀ f, f ∈ x.futures ↔ f ∈ (s.task t).futures ∧ f ∉ fs)
    (hpending : r = .pending → x.futures ≠ []) (hnone : r = .none → (s.task t).futures = []) :
    ∃ s', ({ s with finished := fs ++ s.finished } : State).pollNext t x r = .ok s' ∧ Inv s' := by
  have hy : (x.extend s.spawned).Queued :=
    hx.extend h.nodup fun f hf hmem => h.apart f hf t ((hfutures f).mp hmem).1
  have hmem : ∀ f, f ∈ (x.extend s.spawned).futures ↔ (f ∈ (s.task t).futures ∧ f ∉ fs) ∨ f ∈ s.spawned := by
    intro f
    rw [← hfutures f]
    exact List.mem_append
  have henter : Inv ({ s with spawned := [], finished := fs ++ s.finished } |>.setTask t
      (x.extend s.spawned).enter) := h.take hown hy.enter hmem nofun
  have hrest : ∀ phase, phase ≠ .absent → (∀ c, phase ≠ .polling c) →
      Inv ({ s with spawned := [], finished := fs ++ s.finished } |>.setTask t
        { x.extend s.spawned with phase }) := by
    intro phase habsent hpolling
    refine h.take hown (Tasks.Queued.fair ⟨hy.nodup, hy.held, hy.queued⟩ ?_) hmem habsent
    rintro ⟨c, hc⟩
    exact hpolling c hc
  cases r with
  | finished => exact ⟨_, rfl, henter⟩
  | pending =>
    rw [State.pollNext]
    by_cases hspawned : s.spawned = []
    · have hne : (x.extend s.spawned).futures ≠ [] := List.append_ne_nil_of_left_ne_nil (hpending rfl) _
      simp only [if_pos hspawned]
      rw [returned_ok (by simp [hne])]
      exact ⟨_, rfl, hrest .waiting nofun nofun⟩
    · simp only [if_neg hspawned]
      exact ⟨_, rfl, henter⟩
  | none =>
    -- what is in the list was spawned in this task, which has no futures left
    have hspawned : s.spawned = [] := by
      refine List.eq_nil_iff_forall_not_mem.mpr fun f hf => ?_
      obtain ⟨t', horigin, -, hne⟩ := h.waits f hf
      obtain rfl : t' = t := Option.some.inj (horigin.symm.trans (hown f hf))
      exact hne (hnone rfl)
    have hempty : (x.extend s.spawned).futures = [] := by
      refine List.eq_nil_iff_forall_not_mem.mpr fun f hf => ?_
      rcases (hmem f).mp hf with ⟨hf, -⟩ | hf
      · rw [hnone rfl] at hf
        cases hf
      · rw [hspawned] at hf
        cases hf
    rw [State.pollNext]
    simp only [if_pos hspawned]
    rw [returned_ok (by simp [hempty])]
    exact ⟨_, rfl, hrest .ready nofun nofun⟩

theorem ends_next (hready : (s.task t).ready = []) : t ∈ s.ends (.next t) := by
  rw [State.ends, if_pos hready]
  rfl

theorem ends_polled {ready : Bool} (hphase : (s.task t).phase = .polling c)
    (hends : ready = true ∨ 2 ≤ c.yields ∨ c.polls = c.len) : t ∈ s.ends (.polled t ready) := by
  rw [State.ends, hphase]
  dsimp only
  rw [if_pos hends]
  rfl

theorem exec_next (hphase : (s.task t).phase = .polling c) : s.exec (.next t) = s.next t c := by
  rw [State.exec, hphase]

theorem exec_polled {ready : Bool} (hphase : (s.task t).phase = .polling c) (hcurrent : c.current = some f) :
    s.exec (.polled t ready) = s.polled t c f ready := by
  rw [State.exec, hphase]
  simp only [hcurrent]

theorem Inv.next (h : Inv s) (hphase : (s.task t).phase = .polling c)
    (hown : (s.task t).ready = [] → ∀ f ∈ s.spawned, f.origin = some t) :
    ∃ s', s.next t c = .ok s' ∧ Inv s' := by
  rw [State.next]
  cases hready : (s.task t).ready with
  | nil =>
    refine Inv.pollNext [] h (hown hready) (h.fair t).toQueued (by simp) (fun hr => ?_) fun hr => ?_
    · intro hempty
      rw [if_pos hempty] at hr
      cases hr
    · by_contra hne
      rw [if_neg hne] at hr
      cases hr
  | cons f rest =>
    exact ⟨_, rfl, h.setTask rfl ((h.fair t).next hphase hready) (.inr fun _ => ⟨_, rfl⟩) nofun⟩

theorem Inv.polled {ready : Bool} (h : Inv s) (hphase : (s.task t).phase = .polling c)
    (hcurrent : c.current = some f)
    (hown : ready = true ∨ 2 ≤ c.yields ∨ c.polls = c.len → ∀ f ∈ s.spawned, f.origin = some t) :
    ∃ s', s.polled t c f ready = .ok s' ∧ Inv s' := by
  have hfair := h.fair t
  rw [State.polled]
  cases ready with
  | true =>
    rw [if_pos rfl]
    exact Inv.pollNext [f] h (hown (.inl rfl)) (hfair.toQueued.finish f) (by simp [Tasks.finish]) nofun nofun
  | false =>
    rw [if_neg Bool.false_ne_true]
    split
    · next hdone =>
      obtain ⟨hheld, -⟩ := hfair.current f (by rw [current_of_phase hphase, hcurrent]; rfl)
      exact Inv.pollNext [] h (hown (.inr hdone)) hfair.toQueued (by simp)
        (fun _ => List.ne_nil_of_mem hheld) nofun
    · exact ⟨_, rfl, h.setTask rfl (hfair.yield hphase c.yields) (.inr fun _ => ⟨_, rfl⟩) nofun⟩

theorem Inv.spawn (h : Inv s) {id : Nat} (hid : ∀ f ∈ s.created, f.id ≠ id)
    (hcurrent : (s.task t).current ≠ none) :
    Inv { s with
      spawned := s.spawned ++ [⟨id, some t⟩]
      created := ⟨id, some t⟩ :: s.created } := by
  have hnew : (⟨id, some t⟩ : Future) ∉ s.created := fun hmem => hid _ hmem rfl
  obtain ⟨f, hf⟩ := Option.ne_none_iff_exists'.mp hcurrent
  refine ⟨h.own, h.fair, fun g hg => ?_, fun g hg => ?_, fun g hg => ?_, ?_, fun g hg t' hmem => ?_, h.absent⟩
  · rcases List.mem_append.mp hg with hg | hg
    · exact h.waits g hg
    · rw [List.mem_singleton.mp hg]
      exact ⟨t, rfl, current_ne_polling hcurrent, List.ne_nil_of_mem ((h.fair t).current f hf).1⟩
  · rcases List.mem_cons.mp hg with rfl | hg
    · exact .inr (.inl (by simp))
    · exact (h.created g hg).imp_right (Or.imp_left (List.mem_append_left _))
  · rcases hg with hg | hg
    · rcases List.mem_append.mp hg with hg | hg
      · exact List.mem_cons_of_mem _ (h.known g (.inl hg))
      · rw [List.mem_singleton.mp hg]
        exact List.mem_cons_self
    · exact List.mem_cons_of_mem _ (h.known g (.inr hg))
  · refine h.nodup.append (List.nodup_singleton _) fun g hg hg' => ?_
    rw [List.mem_singleton.mp hg'] at hg
    exact hnew (h.known _ (.inl hg))
  · rcases List.mem_append.mp hg with hg | hg
    · exact h.apart g hg t' hmem
    · rw [List.mem_singleton.mp hg] at hmem
      exact hnew (h.known _ (.inr ⟨t', hmem⟩))

theorem Inv.step (h : Inv s) {e : Event} (hallowed : s.allowed e) (hok : InTask s e) :
    ∃ s', s.exec e = .ok s' ∧ Inv s' := by
  cases e with
  | new t id => exact ⟨_, rfl, h.new hallowed.1 hallowed.2⟩
  | enter t =>
    exact ⟨_, rfl, h.setTask rfl (h.fair t).toQueued.enter (.inr fun _ => ⟨_, rfl⟩) nofun⟩
  | wake t f =>
    refine ⟨_, rfl, h.setTask rfl ((h.fair t).wake hallowed) (.inr ?_) fun habsent => ?_⟩
    · rintro ⟨c, hc⟩
      exact ⟨_, by rw [Tasks.wake, hc]⟩
    · simp only [Tasks.wake] at habsent
      split at habsent
      · cases habsent
      · have hmem : f ∈ (s.task t).futures := hallowed
        rw [h.absent t habsent] at hmem
        cases hmem
  | next t =>
    obtain ⟨⟨c, hc⟩, -⟩ := hallowed
    rw [exec_next hc]
    exact h.next hc fun hready => hok.takes t (ends_next hready)
  | polled t ready =>
    obtain ⟨c, hc⟩ := current_ne_polling hallowed
    obtain ⟨f, hf⟩ := Option.ne_none_iff_exists'.mp hallowed
    rw [current_of_phase hc] at hf
    rw [exec_polled hc hf]
    exact h.polled hc hf fun hends => hok.takes t (ends_polled hc hends)
  | spawn caller id =>
    cases caller with
    | none => exact absurd rfl (hok.spawns id)
    | some t => exact ⟨_, rfl, h.spawn hallowed.1 (hallowed.2 t rfl)⟩
  | cancel t =>
    have hempty := hok.cancels t rfl
    -- a task that is polled is not cancelled
    have hidle : ¬ (s.task t).Polling := by
      rintro ⟨c, hc⟩
      rcases hallowed with hw | hw <;> cases hc.symm.trans hw
    refine ⟨_, rfl, h.setTask hempty.symm (Tasks.Queued.fair ⟨List.nodup_nil, nofun, nofun⟩ ?_)
      (.inr fun hp => absurd hp hidle) nofun⟩
    rintro ⟨c, hc⟩
    cases hc

theorem Inv.of_reachable (h : (runs InTask).Reachable s) : Inv s := by
  refine System.Reachable.invariant (fun s hs => ?_) (fun s e s' hinv hok hexec => ?_) h
  · obtain rfl : s = _ := hs
    have hfair : Tasks.Fair ⟨.absent, [], [], []⟩ :=
      Tasks.Queued.fair ⟨List.nodup_nil, nofun, nofun⟩ (by rintro ⟨c, hc⟩; cases hc)
    refine ⟨nofun, fun _ => hfair, nofun, nofun, fun f hf => ?_, List.nodup_nil, nofun, fun _ _ => rfl⟩
    rcases hf with hf | ⟨t, hf⟩ <;> cases hf
  · obtain ⟨s'', hexec', hinv'⟩ := hinv.step hok.1 hok.2
    cases hexec.symm.trans hexec'
    exact hinv'

/-! ## Nothing is lost -/

/-- `poll_next` returns `Pending` only where nothing was spawned. -/
theorem pollNext_waiting {r : Inner} (h : s.pollNext t x r = .ok s') (hwaiting : (s'.task t).phase = .waiting) :
    r = .pending ∧ s'.spawned = [] ∧ (s'.task t).futures = x.futures ∧ (s'.task t).polled = x.polled := by
  cases r with
  | finished =>
    cases h
    rw [setTask_self] at hwaiting
    cases hwaiting
  | pending =>
    rw [State.pollNext] at h
    by_cases hspawned : s.spawned = []
    · simp only [if_pos hspawned, State.returned, if_neg Bool.false_ne_true] at h
      split at h
      · cases h
      · cases h
        exact ⟨rfl, rfl, by simp [Tasks.extend, hspawned], by simp [Tasks.extend]⟩
    · simp only [if_neg hspawned] at h
      cases h
      rw [setTask_self] at hwaiting
      cases hwaiting
  | none =>
    rw [State.pollNext] at h
    by_cases hspawned : s.spawned = []
    · simp only [if_pos hspawned, State.returned, if_true] at h
      split at h
      · cases h
        rw [setTask_self] at hwaiting
        cases hwaiting
      · cases h
    · simp only [if_neg hspawned] at h
      cases h

theorem ends_cases {e : Event} (h : t ∈ s.ends e) : (e = .next t ∧ (s.task t).ready = []) ∨
    ∃ ready c, e = .polled t ready ∧ (s.task t).phase = .polling c ∧
      (ready = true ∨ 2 ≤ c.yields ∨ c.polls = c.len) := by
  cases e with
  | next t' =>
    rw [State.ends, Option.mem_def] at h
    split at h
    · next hready =>
      obtain rfl := Option.some.inj h
      exact .inl ⟨rfl, hready⟩
    · cases h
  | polled t' ready =>
    rw [State.ends, Option.mem_def] at h
    split at h
    · next c hc =>
      split at h
      · next hdone =>
        obtain rfl := Option.some.inj h
        exact .inr ⟨ready, c, rfl, hc, hdone⟩
      · cases h
    · cases h
  | _ => cases h

/-- A step in which `FuturesUnordered` returns is a turn of the loop of `poll_next`. -/
theorem exec_ends {e : Event} (hallowed : s.allowed e) (h : t ∈ s.ends e) : ∃ (s₁ : State) (x : Tasks) (r : Inner),
    s.exec e = s₁.pollNext t x r ∧ s₁.spawned = s.spawned ∧
      (r = .pending → x = s.task t ∧ ((s.task t).ready = [] ∨ s.Yields t e ∨
        ∃ c, (s.task t).phase = .polling c ∧ c.polls = c.len)) := by
  rcases ends_cases h with ⟨rfl, hready⟩ | ⟨ready, c, rfl, hc, hdone⟩
  · obtain ⟨⟨c, hc⟩, -⟩ := hallowed
    refine ⟨s, s.task t, if (s.task t).futures = [] then .none else .pending, ?_, rfl,
      fun _ => ⟨rfl, .inl hready⟩⟩
    rw [exec_next hc, State.next, hready]
  · obtain ⟨f, hf⟩ := Option.ne_none_iff_exists'.mp (show (s.task t).current ≠ none from hallowed)
    rw [current_of_phase hc] at hf
    rw [exec_polled hc hf, State.polled]
    cases ready with
    | true => exact ⟨_, _, .finished, if_pos rfl, rfl, nofun⟩
    | false =>
      have hyields : 2 ≤ c.yields ∨ c.polls = c.len := hdone.resolve_left Bool.false_ne_true
      rw [if_neg Bool.false_ne_true, if_pos hyields]
      exact ⟨s, _, .pending, rfl, rfl, fun _ => ⟨rfl, .inr (hyields.imp (fun hy => ⟨rfl, c, hc, hy⟩)
        fun hp => ⟨c, hc, hp⟩)⟩⟩

theorem Inv.pending (h : Inv s) {e : Event} (hallowed : s.allowed e) (hok : InTask s e)
    (hexec : s.exec e = .ok s') (hends : t ∈ s.ends e) (hwaiting : (s'.task t).phase = .waiting) :
    s'.spawned = [] ∧ ∀ f ∈ (s'.task t).futures, f ∈ (s'.task t).polled := by
  obtain ⟨s₁, x, r, heq, -, hr⟩ := exec_ends hallowed hends
  obtain ⟨hpending, hspawned, hfutures, hpolled⟩ := pollNext_waiting (heq ▸ hexec) hwaiting
  obtain ⟨rfl, hwhy⟩ := hr hpending
  refine ⟨hspawned, ?_⟩
  rw [hfutures, hpolled]
  have hfair := h.fair t
  have hpolling : (s.task t).Polling := by
    rcases ends_cases hends with ⟨rfl, -⟩ | ⟨-, c, -, hc, -⟩
    · exact hallowed.1
    · exact ⟨c, hc⟩
  obtain ⟨c, hc⟩ := hpolling
  rcases hwhy with hready | hyields | ⟨c', hc', hpolls⟩
  · exact hfair.all_polled hc (.inl hready)
  · intro f hf
    by_contra hnew
    exact hnew (hok.yields t hyields f (hfair.queued f hf hnew))
  · exact hfair.all_polled hc' (.inr hpolls)

theorem Inv.kept (h : Inv s) : Kept InTask s where
  own := h.own
  lost f hf := by
    rcases h.created f hf with hmem | hmem | ⟨t, horigin, hmem⟩
    · exact .inl hmem
    · obtain ⟨t, horigin, hphase, -⟩ := h.waits f hmem
      exact .inr ⟨t, horigin, .inr ⟨hmem, hphase⟩⟩
    · exact .inr ⟨t, horigin, .inl hmem⟩
  queued t := (h.fair t).queued
  pending _ _ _ hallowed hok hexec hends hwaiting := h.pending hallowed hok hexec hends hwaiting
  steps _ hallowed hok := (h.step hallowed hok).imp fun _ => And.left

/-- What was spawned elsewhere goes to the task that is polled, or its assertion fails. -/
theorem misattributed {e : Event} (hallowed : s.allowed e) (hends : t ∈ s.ends e) (hf : f ∈ s.spawned)
    (horigin : f.origin ≠ some t) : (∃ text, s.exec e = .error text) ∨
      ∃ s', s.exec e = .ok s' ∧ ∃ f ∈ (s'.task t).futures, f.origin ≠ some t := by
  obtain ⟨s₁, x, r, heq, hspawned, -⟩ := exec_ends hallowed hends
  have hne : s₁.spawned ≠ [] := hspawned ▸ List.ne_nil_of_mem hf
  have hmem : f ∈ (x.extend s₁.spawned).futures := List.mem_append_right _ (hspawned ▸ hf)
  rw [heq]
  cases r with
  | pending =>
    simp only [State.pollNext, if_neg hne]
    exact .inr ⟨_, rfl, f, by rw [setTask_self]; exact hmem, horigin⟩
  | none =>
    simp only [State.pollNext, if_neg hne]
    exact .inl ⟨_, rfl⟩
  | finished => exact .inr ⟨_, rfl, f, by rw [setTask_self]; exact hmem, horigin⟩

/-- Two futures that wake themselves keep a new one from its first poll. -/
theorem Inv.yields (h : Inv s) {e : Event} (hallowed : s.allowed e) (hyields : s.Yields t e)
    (hspawned : s.spawned = []) (hf : f ∈ (s.task t).ready) (hnew : f ∉ (s.task t).polled) :
    ∃ s', s.exec e = .ok s' ∧ (s'.task t).phase = .waiting ∧
      ∃ f ∈ (s'.task t).futures, f ∉ (s'.task t).polled := by
  obtain ⟨rfl, c, hc, hcount⟩ := hyields
  obtain ⟨g, hg⟩ := Option.ne_none_iff_exists'.mp (show (s.task t).current ≠ none from hallowed)
  rw [current_of_phase hc] at hg
  have hheld : f ∈ (s.task t).futures := (h.fair t).held f hf
  have hempty : (s.task t).extend [] = s.task t := by simp [Tasks.extend]
  refine ⟨{ s with spawned := [] } |>.setTask t { s.task t with phase := .waiting }, ?_, ?_, f, ?_, ?_⟩
  · rw [exec_polled hc hg, State.polled, if_neg Bool.false_ne_true, if_pos (.inl hcount), State.pollNext]
    simp only [if_pos hspawned]
    rw [hspawned, hempty, returned_ok (by simp [List.ne_nil_of_mem hheld])]
    rfl
  · rw [setTask_self]
  · rw [setTask_self]
    exact hheld
  · rw [setTask_self]
    exact hnew

/-- The state of task 1 is `x`, and there is no other. -/
def alone (x : Tasks) : Ptr → Tasks := Function.update (fun _ => ⟨.absent, [], [], []⟩) 1 x

theorem update_alone (x y : Tasks) : Function.update (alone x) 1 y = alone y :=
  Function.update_idem ..

/-- A step leads to a state with these tasks. -/
def reached (spawned finished created : List Future) (task : Ptr → Tasks) : Except String State :=
  .ok ⟨spawned, task, finished, created⟩

def root : Future := ⟨0, some 1⟩

/-- The future that the root spawns. -/
def spawned : Future := ⟨1, some 1⟩

/-- While the root is polled for the first time. -/
def polledRoot : Tasks := ⟨.polling ⟨1, 1, 0, some root, false⟩, [root], [], [root]⟩

theorem root_polled {ok : State → Event → Prop}
    (hnew : ok ⟨[], fun _ => ⟨.absent, [], [], []⟩, [], []⟩ (.new 1 0))
    (henter : ok ⟨[], alone ⟨.waiting, [root], [root], []⟩, [], [root]⟩ (.enter 1))
    (hnext : ok ⟨[], alone ⟨.polling ⟨1, 0, 0, none, false⟩, [root], [root], []⟩, [], [root]⟩ (.next 1)) :
    (runs ok).Reachable ⟨[], alone polledRoot, [], [root]⟩ := by
  have h₀ : (runs ok).Reachable ⟨[], fun _ => ⟨.absent, [], [], []⟩, [], []⟩ := .init _ rfl
  have h₁ : (runs ok).Reachable ⟨[], alone ⟨.waiting, [root], [root], []⟩, [], [root]⟩ :=
    h₀.step _ _ (.new 1 0) ⟨⟨rfl, nofun⟩, hnew⟩ rfl
  have h₂ : (runs ok).Reachable ⟨[], alone ⟨.polling ⟨1, 0, 0, none, false⟩, [root], [root], []⟩, [], [root]⟩ :=
    h₁.step _ _ (.enter 1) ⟨.inl rfl, henter⟩ (congrArg (reached [] [] [root]) (update_alone ..))
  exact h₂.step _ _ (.next 1) ⟨⟨⟨_, rfl⟩, rfl⟩, hnext⟩ (congrArg (reached [] [] [root]) (update_alone ..))

end Spawn

end Rt

end WitBindgen
