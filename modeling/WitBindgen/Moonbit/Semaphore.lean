import WitBindgen.Moonbit.Coroutine
import WitBindgen.Library.Runs

/-!
# Semaphores

`async/semaphore.mbt`: permits that coroutines acquire and release; `async/mutex.mbt`
is a semaphore with one permit. A call of `acquire` that finds no permit waits in a
queue until a release assigns it one. A waiter whose permit is assigned keeps it even
when it is cancelled before it goes on, and a cancelled waiter without a permit stays
in the queue but is passed over.

`acquire` takes every return of `suspend` for an assigned permit. That is right as
long as a coroutine that starts to wait has no entry left in the run queue, and is
not woken for something else while it waits.
-/

namespace WitBindgen

namespace Moonbit

namespace Semaphore

/-- The calls of `acquire` that found no permit, in the order of their arrival. -/
abbrev CallId := Nat

/-- What a suspended coroutine waits for: its start, a permit, or anything else. -/
inductive Waits where
  | start
  | acquire (w : CallId)
  | other
deriving DecidableEq

structure SemaphoreWaiter where
  acquired : Bool
  coro : Option CoroId
deriving DecidableEq

/-- A semaphore and the coroutines that use it. `held` counts the permits that
calls returned with and that were not released, `granted` the waiters that have a
permit but did not go on yet; `served` lists the waiters that got a permit, and
`returned` those whose call returned. -/
structure State where
  sched : Scheduler Waits
  size : Nat
  value : Nat
  waiters : List CallId
  waiter : CallId → SemaphoreWaiter
  calls : CallId
  held : Nat
  granted : List CallId
  served : List CallId
  returned : List CallId

namespace State

variable (s : State)

abbrev state (c : CoroId) : CoroState Waits := (s.sched.coros c).state
abbrev acquired (w : CallId) : Bool := (s.waiter w).acquired

/-- The first waiter of the queue that was not cancelled, and those behind it. -/
def nextWaiter (waiter : CallId → SemaphoreWaiter) : List CallId → Option (CallId × CoroId × List CallId)
  | [] => none
  | w :: ws =>
    match (waiter w).coro with
    | some c => some (w, c, ws)
    | none => nextWaiter waiter ws

def release : Except String State :=
  if s.size ≤ s.value then .error "semaphore: too many release"
  else
    match nextWaiter s.waiter s.waiters with
    | some (w, c, ws) => .ok { s with
        waiters := ws
        waiter := Function.update s.waiter w { s.waiter w with acquired := true }
        sched := s.sched.wake c
        held := s.held - 1
        granted := s.granted ++ [w]
        served := s.served ++ [w] }
    | none => .ok { s with waiters := [], value := s.value + 1, held := s.held - 1 }

/-- `try_acquire`, and the beginning of `acquire`. -/
def tryAcquire : State :=
  if 0 < s.value then { s with value := s.value - 1, held := s.held + 1 } else s

/-- `acquire`, up to its suspension. -/
def acquire (c : CoroId) : State :=
  if 0 < s.value then s.tryAcquire
  else
    let w := s.calls
    let s := { s with calls := s.calls + 1, waiters := s.waiters ++ [w] }
    if (s.sched.coros c).interrupted then
      -- `suspend` raises, and the waiter is given up
      { s with waiter := Function.update s.waiter w ⟨false, none⟩ }
    else
      { s with
        waiter := Function.update s.waiter w ⟨false, some c⟩
        sched := s.sched.suspend c (.acquire w) }

/-- The rest of `acquire`, where `suspend` returned or raised. -/
def acquireResumed (w : CallId) (raised : Bool) : State :=
  if raised && !s.acquired w then
    { s with waiter := Function.update s.waiter w { s.waiter w with coro := none } }
  else { s with
    held := s.held + 1
    granted := s.granted.erase w
    returned := s.returned ++ [w] }

/-- One turn of `reschedule`. -/
def resume (lane : Lane) : State :=
  match s.sched.runLater lane with
  | [] => s
  | c :: _ =>
    let s' := { s with sched := s.sched.reschedule lane }
    match s.state c with
    | .suspend (.acquire w) => s'.acquireResumed w (s'.sched.coros c).interrupted
    | .suspend .start => { s' with sched := s'.sched.shield c false }
    | _ => s'

end State

/-! ## Runs -/

/-- What coroutines do. `shield` is either end of `protect_from_cancel`; `park` is
a suspension anywhere else. `unpark` is a wake from elsewhere, as by the signal of a
condition variable, which wakes the coroutine of its record whatever that waits for
now. A coroutine that cancels itself, as `return_immediately` does, is one that runs
at `cancel`. -/
inductive Event where
  | spawn (lane : Lane)
  | resume (lane : Lane)
  | acquire
  | tryAcquire
  | release
  | cancel (c : CoroId)
  | shield (shielded : Bool)
  | park
  | unpark (c : CoroId)
  | finish (failed : Bool)

namespace State

variable (s : State)

/-- The coroutine that runs does something to the scheduler. -/
def running (f : CoroId → Scheduler Waits) : State :=
  match s.sched.currCoro with
  | some c => { s with sched := f c }
  | none => s

def exec : Event → Except String State
  | .spawn lane => .ok { s with sched := s.sched.spawnOwned lane .start }
  | .resume lane => .ok (s.resume lane)
  | .acquire =>
    match s.sched.currCoro with
    | some c => .ok (s.acquire c)
    | none => .error "called `unwrap` on a `None` value"
  | .tryAcquire => .ok s.tryAcquire
  | .release => s.release
  | .cancel c => .ok { s with sched := s.sched.cancel c }
  | .shield shielded => .ok (s.running fun c => s.sched.shield c shielded)
  | .park => .ok (s.running fun c =>
    if (s.sched.coros c).interrupted then s.sched else s.sched.suspend c .other)
  | .unpark c => .ok { s with sched := s.sched.wake c }
  | .finish failed => .ok (s.running fun c => s.sched.finish c (if failed then .fail else .done))

/-- A round of the scheduler is not started by a coroutine that runs, and nothing is
released that is not held. -/
def allowed : Event → Prop
  | .resume _ => s.sched.currCoro = none
  | .acquire | .tryAcquire | .shield _ | .park | .finish _ => s.sched.currCoro.isSome = true
  | .release => 0 < s.held
  | .unpark c => c < s.sched.coroId
  | .spawn _ | .cancel _ => True

def New (size initial : Nat) (s : State) : Prop :=
  0 < size ∧ initial ≤ size ∧ ∃ waiter,
    s = ⟨.empty, size, initial, [], waiter, 0, 0, [], [], []⟩

end State

/-- Every run of coroutines that use one semaphore. -/
def system (size initial : Nat) : System State Event String where
  init := State.New size initial
  allowed := State.allowed
  exec := State.exec

/-- No coroutine starts to wait for a permit while its entry is still in the run
queue: it was cancelled while it ran, and shields itself now. And none is woken from
elsewhere while it waits for one. -/
def State.Undisturbed (s : State) : Event → Prop
  | .acquire => ∀ c, s.sched.currCoro = some c → s.value = 0 →
      (s.sched.coros c).interrupted = false → (s.sched.coros c).ready = false
  | .unpark c => ∀ w, s.state c ≠ .suspend (.acquire w)
  | _ => True

/-- The runs whose steps all meet `Undisturbed`. -/
def orderly (size initial : Nat) : System State Event String where
  init := State.New size initial
  allowed s e := s.allowed e ∧ s.Undisturbed e
  exec := State.exec

/-! ## Conservation -/

/-- What users of a semaphore rely on. -/
structure State.Conserved (initial : Nat) (s : State) : Prop where
  /-- A call that waited returned only with a permit. -/
  returns : ∀ w ∈ s.returned, s.acquired w = true
  permits : s.value + s.held + s.granted.length = initial
  /-- The permits that are assigned and not yet held are those of suspended calls. -/
  granted : s.granted.Nodup ∧ ∀ w, w ∈ s.granted ↔
    s.acquired w = true ∧ ∃ c, s.state c = .suspend (.acquire w)
  /-- No waiter is served before one that came earlier and is still waiting. -/
  fifo : s.served.Pairwise (· < ·) ∧
    ∀ w ∈ s.served, ∀ w' ∈ s.waiters, (s.waiter w').coro ≠ none → w < w'
  available : 0 < s.value → ∀ w ∈ s.waiters, (s.waiter w).coro = none

/-- `Conserved`, with what the queue and the run queues say of each other. -/
structure State.Inv (initial : Nat) (s : State) : Prop extends s.Conserved initial where
  sched : s.sched.Inv
  /-- A suspended call has its permit or is still in the queue. -/
  waits : ∀ c w, s.state c = .suspend (.acquire w) → (s.waiter w).coro = some c ∧ w < s.calls ∧
    (s.acquired w = true ∨ w ∈ s.waiters)
  /-- A suspended call goes on for a permit or for a cancellation. -/
  woken : ∀ c w, s.state c = .suspend (.acquire w) → (s.sched.coros c).ready = true →
    s.acquired w = true ∨ (s.sched.coros c).interrupted = true
  queued : ∀ w ∈ s.waiters, s.acquired w = false ∧ w < s.calls ∧
    ∀ c, (s.waiter w).coro = some c → s.state c = .suspend (.acquire w)
  sorted : s.waiters.Pairwise (· < ·)
  served_lt : ∀ w ∈ s.served, w < s.calls
  returned_lt : ∀ w ∈ s.returned, w < s.calls

namespace State

variable {s : State} {initial : Nat}

/-- Of a waiter and its coroutine each tells the other. -/
theorem Inv.waits_unique (h : s.Inv initial) {c d : CoroId} {w : CallId}
    (hc : s.state c = .suspend (.acquire w)) (hd : s.state d = .suspend (.acquire w)) : c = d :=
  Option.some.inj ((h.waits c w hc).1.symm.trans (h.waits d w hd).1)

/-- A change of the scheduler that leaves the suspended calls as they are. -/
theorem Inv.withSched (h : s.Inv initial) {sched : Scheduler Waits} (hs : sched.Inv)
    (hsame : ∀ c w, (sched.coros c).state = .suspend (.acquire w) ↔ s.state c = .suspend (.acquire w))
    (hwoken : ∀ c w, s.state c = .suspend (.acquire w) → (sched.coros c).ready = true →
      s.acquired w = true ∨ (sched.coros c).interrupted = true) :
    ({ s with sched := sched } : State).Inv initial :=
  { h with
    granted := ⟨h.granted.1, fun w => (h.granted.2 w).trans
      (and_congr_right fun _ => exists_congr fun c => (hsame c w).symm)⟩
    sched := hs
    waits := fun c w hc => h.waits c w ((hsame c w).mp hc)
    woken := fun c w hc => hwoken c w ((hsame c w).mp hc)
    queued := fun w hw => ⟨(h.queued w hw).1, (h.queued w hw).2.1,
      fun c hc => (hsame c w).mpr ((h.queued w hw).2.2 c hc)⟩ }

/-- As `withSched`, where a coroutine that is not in a call is changed and is in none
afterwards. -/
theorem Inv.withCoro (h : s.Inv initial) {sched : Scheduler Waits} {c : CoroId} {x : Coroutine Waits}
    (hs : sched.Inv) (hcoros : sched.coros = Function.update s.sched.coros c x)
    (hold : ∀ w, s.state c ≠ .suspend (.acquire w)) (hnew : ∀ w, x.state ≠ .suspend (.acquire w)) :
    ({ s with sched := sched } : State).Inv initial := by
  refine h.withSched hs (fun d w => ?_) (fun d w hd => ?_)
  · rw [hcoros]
    by_cases hdc : d = c
    · subst hdc
      rw [Function.update_self]
      exact iff_of_false (hnew w) (hold w)
    · rw [Function.update_of_ne hdc]
  · have hdc : d ≠ c := by rintro rfl; exact hold w hd
    rw [hcoros, Function.update_of_ne hdc]
    exact h.woken d w hd

theorem Inv.cancel (h : s.Inv initial) (c : CoroId) :
    ({ s with sched := s.sched.cancel c } : State).Inv initial := by
  refine h.withSched h.sched.cancel (fun d w => ?_) (fun d w hd hready => ?_)
  · rw [Scheduler.cancel_coros]
    by_cases hdc : d = c
    · subst hdc
      rw [Function.update_self]
      split <;> rfl
    · rw [Function.update_of_ne hdc]
  · rw [Scheduler.cancel_coros] at hready ⊢
    by_cases hdc : d = c
    · subst hdc
      have hstate : (s.sched.coros d).state = .suspend (.acquire w) := hd
      simp only [Function.update_self, hstate, Bool.or_eq_true, Bool.not_eq_true',
        Coroutine.interrupted, Bool.true_and] at hready ⊢
      rcases hready with hready | hready
      · refine (h.woken d w hd hready).imp id fun hint => ?_
        exact Bool.not_eq_true' _ ▸ (Bool.and_eq_true_iff.mp hint).2
      · exact Or.inr hready
    · rw [Function.update_of_ne hdc] at hready ⊢
      exact h.woken d w hd hready

/-- The running coroutine is in no call. -/
theorem Inv.not_in_call (h : s.Inv initial) {c : CoroId} (hcurr : s.sched.currCoro = some c) (w : CallId) :
    s.state c ≠ .suspend (.acquire w) := by
  have hrun := (h.sched.running c).mpr hcurr
  rw [state, hrun]
  nofun

theorem Inv.tryAcquire (h : s.Inv initial) : s.tryAcquire.Inv initial := by
  rw [State.tryAcquire]
  split
  · rename_i hv
    exact { h with
      permits := by have := h.permits; dsimp only; omega
      available := fun _ => h.available hv }
  · exact h

/-! ## Waiting -/

/-- A new call joins the queue behind all others; until its coroutine suspends it
counts as given up. -/
theorem Inv.enter (h : s.Inv initial) : ({ s with
    calls := s.calls + 1
    waiters := s.waiters ++ [s.calls]
    waiter := Function.update s.waiter s.calls ⟨false, none⟩ } : State).Inv initial := by
  have hne : ∀ w, w < s.calls → w ≠ s.calls := fun w hw => Nat.ne_of_lt hw
  have hwaits : ∀ d w, s.state d = .suspend (.acquire w) → w ≠ s.calls := fun d w hd =>
    hne w (h.waits d w hd).2.1
  have hmem : ∀ w ∈ s.waiters ++ [s.calls], w ∈ s.waiters ∨ w = s.calls := fun w hw =>
    (List.mem_append.mp hw).imp id List.mem_singleton.mp
  constructor
  · constructor
    · intro w hw
      simp only [acquired, Function.update_of_ne (hne w (h.returned_lt w hw))]
      exact h.returns w hw
    · exact h.permits
    · refine ⟨h.granted.1, fun w => ?_⟩
      by_cases hw : w = s.calls
      · subst hw
        simp only [acquired, Function.update_self]
        refine iff_of_false (fun hin => ?_) fun hr => nomatch hr.1
        obtain ⟨-, d, hd⟩ := (h.granted.2 _).mp hin
        exact hwaits d _ hd rfl
      · simp only [acquired, Function.update_of_ne hw]
        exact h.granted.2 w
    · refine ⟨h.fifo.1, fun w hw w' hw' hlive => ?_⟩
      rcases hmem w' hw' with hw' | rfl
      · simp only [Function.update_of_ne (hne w' (h.queued w' hw').2.1)] at hlive
        exact h.fifo.2 w hw w' hw' hlive
      · exact h.served_lt w hw
    · intro hpos w hw
      rcases hmem w hw with hw | rfl
      · simp only [Function.update_of_ne (hne w (h.queued w hw).2.1)]
        exact h.available hpos w hw
      · simp only [Function.update_self]
  · exact h.sched
  · intro d w hd
    obtain ⟨hcoro, hlt, hplace⟩ := h.waits d w hd
    simp only [acquired, Function.update_of_ne (hwaits d w hd)]
    exact ⟨hcoro, Nat.lt_succ_of_lt hlt, hplace.imp id (List.mem_append_left _)⟩
  · intro d w hd hready
    simp only [acquired, Function.update_of_ne (hwaits d w hd)]
    exact h.woken d w hd hready
  · intro w hw
    rcases hmem w hw with hw | rfl
    · simp only [acquired, Function.update_of_ne (hne w (h.queued w hw).2.1)]
      exact ⟨(h.queued w hw).1, Nat.lt_succ_of_lt (h.queued w hw).2.1, (h.queued w hw).2.2⟩
    · simp only [acquired, Function.update_self]
      exact ⟨trivial, Nat.lt_succ_self _, nofun⟩
  · refine List.pairwise_append.mpr ⟨h.sorted, List.pairwise_singleton _ _, fun w hw w' hw' => ?_⟩
    rw [List.mem_singleton.mp hw']
    exact (h.queued w hw).2.1
  · exact fun w hw => Nat.lt_succ_of_lt (h.served_lt w hw)
  · exact fun w hw => Nat.lt_succ_of_lt (h.returned_lt w hw)

/-- The coroutine of a new call suspends. -/
theorem Inv.sleep (h : s.Inv initial) {c : CoroId} {w : CallId} (hcurr : s.sched.currCoro = some c)
    (hzero : s.value = 0) (hready : (s.sched.coros c).ready = false) (hw : w ∈ s.waiters)
    (hnew : (s.waiter w).coro = none) (hserved : ∀ u ∈ s.served, u < w) (hret : w ∉ s.returned) :
    ({ s with
      waiter := Function.update s.waiter w ⟨false, some c⟩
      sched := s.sched.suspend c (.acquire w) } : State).Inv initial := by
  have hc := h.not_in_call hcurr
  have hwaits : ∀ d u, s.state d = .suspend (.acquire u) → u ≠ w := by
    rintro d u hd rfl
    have hcoro := (h.waits d u hd).1
    rw [hnew] at hcoro
    cases hcoro
  have hself : ((s.sched.suspend c (.acquire w)).coros c) =
      { s.sched.coros c with state := .suspend (.acquire w) } := by
    simp only [Scheduler.suspend, Scheduler.set, Function.update_self]
  have hother : ∀ d, d ≠ c → (s.sched.suspend c (.acquire w)).coros d = s.sched.coros d :=
    fun d hd => by simp only [Scheduler.suspend, Scheduler.set, Function.update_of_ne hd]
  have hstate : ∀ d u, ((s.sched.suspend c (.acquire w)).coros d).state = .suspend (.acquire u) →
      (d = c ∧ u = w) ∨ (d ≠ c ∧ s.state d = .suspend (.acquire u)) := by
    intro d u hd
    by_cases hdc : d = c
    · subst hdc
      rw [hself] at hd
      cases hd
      exact Or.inl ⟨rfl, rfl⟩
    · rw [hother d hdc] at hd
      exact Or.inr ⟨hdc, hd⟩
  have hkeep : ∀ d u, s.state d = .suspend (.acquire u) →
      ((s.sched.suspend c (.acquire w)).coros d) = s.sched.coros d := by
    intro d u hd
    refine hother d ?_
    rintro rfl
    exact hc u hd
  constructor
  · constructor
    · intro u hu
      have hne : u ≠ w := by rintro rfl; exact hret hu
      simp only [acquired, Function.update_of_ne hne]
      exact h.returns u hu
    · exact h.permits
    · refine ⟨h.granted.1, fun u => ?_⟩
      by_cases huw : u = w
      · subst huw
        simp only [acquired, Function.update_self]
        refine iff_of_false (fun hin => ?_) fun hr => by cases hr.1
        obtain ⟨-, d, hd⟩ := (h.granted.2 _).mp hin
        exact hwaits d _ hd rfl
      · simp only [acquired, Function.update_of_ne huw]
        refine (h.granted.2 u).trans (and_congr_right fun _ => exists_congr fun d => ?_)
        refine ⟨fun hd => (congrArg _ (hkeep d u hd)).trans hd, fun hd => ?_⟩
        exact ((hstate d u hd).resolve_left fun hr => huw hr.2).2
    · refine ⟨h.fifo.1, fun u hu u' hu' hlive => ?_⟩
      by_cases huw : u' = w
      · exact huw ▸ hserved u hu
      · simp only [Function.update_of_ne huw] at hlive
        exact h.fifo.2 u hu u' hu' hlive
    · intro hpos
      dsimp only at hpos
      omega
  · exact h.sched.leave hcurr (by simp)
  · intro d u hd
    rcases hstate d u hd with ⟨rfl, rfl⟩ | ⟨-, hd⟩
    · exact ⟨by simp only [Function.update_self], (h.queued u hw).2.1, Or.inr hw⟩
    · simp only [acquired, Function.update_of_ne (hwaits d u hd)]
      exact h.waits d u hd
  · intro d u hd hr
    rcases hstate d u hd with ⟨rfl, rfl⟩ | ⟨-, hd⟩
    · dsimp only at hr
      rw [hself, hready] at hr
      cases hr
    · dsimp only at hr
      rw [hkeep d u hd] at hr
      simp only [acquired, Function.update_of_ne (hwaits d u hd), hkeep d u hd]
      exact h.woken d u hd hr
  · intro u hu
    by_cases huw : u = w
    · subst huw
      simp only [acquired, Function.update_self]
      refine ⟨trivial, (h.queued u hw).2.1, fun d hd => ?_⟩
      cases hd
      rw [state, hself]
    · simp only [acquired, Function.update_of_ne huw]
      refine ⟨(h.queued u hu).1, (h.queued u hu).2.1, fun d hd => ?_⟩
      have hold := (h.queued u hu).2.2 d hd
      exact (congrArg _ (hkeep d u hold)).trans hold
  · exact h.sorted
  · exact h.served_lt
  · exact h.returned_lt

theorem Inv.acquire (h : s.Inv initial) {c : CoroId} (hcurr : s.sched.currCoro = some c)
    (hnq : s.Undisturbed .acquire) : (s.acquire c).Inv initial := by
  rw [State.acquire]
  split
  · exact h.tryAcquire
  · rename_i hv
    have hzero : s.value = 0 := by omega
    dsimp only
    split
    · exact h.enter
    · rename_i hint
      have hready := hnq c hcurr hzero (Bool.not_eq_true _ ▸ hint)
      have hsleep := h.enter.sleep (c := c) (w := s.calls) hcurr hzero hready
        (List.mem_append_right _ (List.mem_singleton_self _)) (by simp only [Function.update_self])
        h.served_lt (fun hin => Nat.lt_irrefl _ (h.returned_lt _ hin))
      simp only [Function.update_idem] at hsleep
      exact hsleep

/-! ## Going on -/

/-- A call leaves with its permit. -/
theorem Inv.leaveWith (h : s.Inv initial) {c : CoroId} {w : CallId} {sched : Scheduler Waits}
    (hs : sched.Inv) (hc : s.state c = .suspend (.acquire w)) (hacq : s.acquired w = true)
    (hnew : ∀ u, (sched.coros c).state ≠ .suspend (.acquire u))
    (hother : ∀ d, d ≠ c → sched.coros d = s.sched.coros d) :
    ({ s with
      sched := sched
      held := s.held + 1
      granted := s.granted.erase w
      returned := s.returned ++ [w] } : State).Inv initial := by
  have hin : w ∈ s.granted := (h.granted.2 w).mpr ⟨hacq, c, hc⟩
  have hstate : ∀ d u, (sched.coros d).state = .suspend (.acquire u) →
      d ≠ c ∧ s.state d = .suspend (.acquire u) := by
    intro d u hd
    have hdc : d ≠ c := by rintro rfl; exact hnew u hd
    rw [hother d hdc] at hd
    exact ⟨hdc, hd⟩
  refine { h with
    returns := fun u hu => ?_
    permits := ?_
    granted := ⟨h.granted.1.erase w, fun u => ?_⟩
    sched := hs
    waits := fun d u hd => h.waits d u (hstate d u hd).2
    woken := fun d u hd hr => ?_
    queued := fun u hu => ⟨(h.queued u hu).1, (h.queued u hu).2.1, fun d hd => ?_⟩
    returned_lt := fun u hu => ?_ }
  · rcases List.mem_append.mp hu with hu | hu
    · exact h.returns u hu
    · rw [List.mem_singleton.mp hu]
      exact hacq
  · have hpermits := h.permits
    have hlen := List.length_erase_of_mem hin
    have hpos := List.length_pos_of_mem hin
    dsimp only
    omega
  · rw [h.granted.1.mem_erase_iff, h.granted.2 u]
    constructor
    · rintro ⟨hne, hu, d, hd⟩
      refine ⟨hu, d, ?_⟩
      have hdc : d ≠ c := by
        rintro rfl
        rw [hc] at hd
        cases hd
        exact hne rfl
      exact (congrArg _ (hother d hdc)).trans hd
    · rintro ⟨hu, d, hd'⟩
      obtain ⟨hdc, hd⟩ := hstate d u hd'
      refine ⟨?_, hu, d, hd⟩
      rintro rfl
      exact hdc (h.waits_unique hd hc)
  · obtain ⟨hdc, hd⟩ := hstate d u hd
    dsimp only at hr ⊢
    rw [hother d hdc] at hr ⊢
    exact h.woken d u hd hr
  · have hold := (h.queued u hu).2.2 d hd
    refine (congrArg _ (hother d ?_)).trans hold
    rintro rfl
    rw [hc] at hold
    cases hold
    exact absurd ((h.queued _ hu).1.symm.trans hacq) nofun
  · rcases List.mem_append.mp hu with hu | hu
    · exact h.returned_lt u hu
    · rw [List.mem_singleton.mp hu]
      exact (h.waits c w hc).2.1

/-- A cancelled call leaves without a permit, and its waiter is given up. -/
theorem Inv.leaveWithout (h : s.Inv initial) {c : CoroId} {w : CallId} {sched : Scheduler Waits}
    (hs : sched.Inv) (hc : s.state c = .suspend (.acquire w)) (hacq : s.acquired w = false)
    (hnew : ∀ u, (sched.coros c).state ≠ .suspend (.acquire u))
    (hother : ∀ d, d ≠ c → sched.coros d = s.sched.coros d) :
    ({ s with
      sched := sched
      waiter := Function.update s.waiter w { s.waiter w with coro := none } } : State).Inv initial := by
  have hstate : ∀ d u, (sched.coros d).state = .suspend (.acquire u) →
      u ≠ w ∧ d ≠ c ∧ s.state d = .suspend (.acquire u) := by
    intro d u hd
    have hdc : d ≠ c := by rintro rfl; exact hnew u hd
    have hold : s.state d = .suspend (.acquire u) := by rwa [hother d hdc] at hd
    refine ⟨?_, hdc, hold⟩
    rintro rfl
    exact hdc (h.waits_unique hold hc)
  have hacquired : ∀ u, (Function.update s.waiter w { s.waiter w with coro := none } u).acquired =
      s.acquired u := by
    intro u
    by_cases hu : u = w
    · subst hu; simp only [Function.update_self]
    · simp only [Function.update_of_ne hu]
  have hcoro : ∀ u, (Function.update s.waiter w { s.waiter w with coro := none } u).coro =
      if u = w then none else (s.waiter u).coro := by
    intro u
    by_cases hu : u = w
    · subst hu; simp only [Function.update_self, if_true]
    · simp only [Function.update_of_ne hu, if_neg hu]
  refine { h with
    returns := fun u hu => (hacquired u).trans (h.returns u hu)
    granted := ⟨h.granted.1, fun u => ?_⟩
    fifo := ⟨h.fifo.1, fun u hu u' hu' hlive => ?_⟩
    available := fun hpos u hu => ?_
    sched := hs
    waits := fun d u hd => ?_
    woken := fun d u hd hr => ?_
    queued := fun u hu => ⟨(hacquired u).trans (h.queued u hu).1, (h.queued u hu).2.1, fun d hd => ?_⟩ }
  · rw [acquired, hacquired u, h.granted.2 u]
    refine and_congr_right fun hu => ⟨?_, fun ⟨d, hd⟩ => ⟨d, (hstate d u hd).2.2⟩⟩
    rintro ⟨d, hd⟩
    refine ⟨d, (congrArg _ (hother d ?_)).trans hd⟩
    rintro rfl
    rw [hc] at hd
    cases hd
    exact absurd (hacq.symm.trans hu) nofun
  · rw [hcoro] at hlive
    split at hlive
    · exact absurd rfl hlive
    · exact h.fifo.2 u hu u' hu' hlive
  · rw [hcoro]
    split
    · rfl
    · exact h.available hpos u hu
  · obtain ⟨hne, -, hd⟩ := hstate d u hd
    dsimp only [acquired]
    rw [hcoro, if_neg hne, hacquired u]
    exact h.waits d u hd
  · obtain ⟨-, hdc, hd⟩ := hstate d u hd
    dsimp only at hr ⊢
    rw [acquired, hacquired u]
    rw [hother d hdc] at hr ⊢
    exact h.woken d u hd hr
  · rw [hcoro] at hd
    split at hd
    · cases hd
    · rename_i hne
      have hold := (h.queued u hu).2.2 d hd
      refine (congrArg _ (hother d ?_)).trans hold
      rintro rfl
      rw [hc] at hold
      cases hold
      exact hne rfl

/-- A round of the scheduler lets a suspended call go on only when it has a permit
or was cancelled. -/
theorem Inv.resume (h : s.Inv initial) (hcurr : s.sched.currCoro = none) (lane : Lane) :
    (s.resume lane).Inv initial := by
  rw [State.resume]
  split
  · exact h
  · rename_i c rest hqueue
    have hmem : c ∈ s.sched.runLater lane := by rw [hqueue]; exact List.mem_cons_self ..
    have hready : (s.sched.coros c).ready = true := ((h.sched.mem_iff lane c).mp hmem).1
    have hs := h.sched.reschedule hcurr lane
    have hother : ∀ d, d ≠ c → (s.sched.reschedule lane).coros d = s.sched.coros d :=
      fun d hd => s.sched.reschedule_other hqueue hd
    have hcoro := s.sched.reschedule_first hqueue
    have hcoros : (s.sched.reschedule lane).coros =
        Function.update s.sched.coros c ((s.sched.reschedule lane).coros c) := by
      funext d
      by_cases hd : d = c
      · subst hd; rw [Function.update_self]
      · rw [Function.update_of_ne hd, hother d hd]
    dsimp only
    split
    · rename_i w hc
      have hcall : (s.sched.coros c).state = .suspend (.acquire w) := hc
      rw [hcall] at hcoro
      have hnew : ∀ u, ((s.sched.reschedule lane).coros c).state ≠ .suspend (.acquire u) := by
        rw [hcoro]; simp
      have hint : ((s.sched.reschedule lane).coros c).interrupted = (s.sched.coros c).interrupted := by
        rw [hcoro]; rfl
      rw [acquireResumed]
      split
      · rename_i hraised
        have hacq : s.acquired w = false := by
          have hand := (Bool.and_eq_true_iff.mp hraised).2
          exact Bool.not_eq_true' _ ▸ hand
        exact h.leaveWithout hs hc hacq hnew hother
      · rename_i hraised
        refine h.leaveWith hs hc ?_ hnew hother
        rcases h.woken c w hc hready with hacq | hcancelled
        · exact hacq
        · rw [hint, hcancelled, Bool.true_and, Bool.not_eq_true', Bool.not_eq_false] at hraised
          exact hraised
    · rename_i hc
      have hcall : (s.sched.coros c).state = .suspend .start := hc
      rw [hcall] at hcoro
      have hold : ∀ w, s.state c ≠ .suspend (.acquire w) := by rw [hc]; simp
      refine h.withCoro (c := c) (hs.set rfl rfl rfl) ?_ hold (x := { (s.sched.reschedule lane).coros c with shielded := false }) ?_
      · rw [Scheduler.shield, Scheduler.set]
        dsimp only
        rw [hcoros, Function.update_idem, Function.update_self]
      · rw [hcoro]; simp
    · rename_i hne₁ hne₂
      have hold : ∀ w, s.state c ≠ .suspend (.acquire w) := hne₁
      refine h.withCoro hs hcoros hold fun w => ?_
      rw [hcoro]
      split
      · simp
      · exact hold w

/-! ## Releasing -/

theorem nextWaiter_some {waiter : CallId → SemaphoreWaiter} {w : CallId} {c : CoroId} :
    ∀ {ws rest : List CallId}, nextWaiter waiter ws = some (w, c, rest) →
      (waiter w).coro = some c ∧ ∃ dead, ws = dead ++ w :: rest ∧ ∀ u ∈ dead, (waiter u).coro = none
  | [], _, h => nomatch h
  | u :: ws, rest, h => by
    rw [nextWaiter] at h
    split at h
    · rename_i d hd
      cases h
      exact ⟨hd, [], rfl, nofun⟩
    · rename_i hd
      obtain ⟨hc, dead, rfl, hdead⟩ := nextWaiter_some h
      refine ⟨hc, u :: dead, rfl, fun v hv => ?_⟩
      rcases List.mem_cons.mp hv with rfl | hv
      · exact hd
      · exact hdead v hv

theorem nextWaiter_none {waiter : CallId → SemaphoreWaiter} :
    ∀ {ws : List CallId}, nextWaiter waiter ws = none → ∀ u ∈ ws, (waiter u).coro = none
  | [], _, _, hu => nomatch hu
  | u :: ws, h, v, hv => by
    rw [nextWaiter] at h
    split at h
    · cases h
    · rename_i hd
      rcases List.mem_cons.mp hv with rfl | hv
      · exact hd
      · exact nextWaiter_none h v hv

/-- A release hands its permit to the first live waiter. -/
theorem Inv.hand (h : s.Inv initial) (hheld : 0 < s.held) {w : CallId} {c : CoroId}
    {dead rest : List CallId} (hws : s.waiters = dead ++ w :: rest)
    (hdead : ∀ u ∈ dead, (s.waiter u).coro = none) (hcoro : (s.waiter w).coro = some c) :
    ({ s with
      waiters := rest
      waiter := Function.update s.waiter w { s.waiter w with acquired := true }
      sched := s.sched.wake c
      held := s.held - 1
      granted := s.granted ++ [w]
      served := s.served ++ [w] } : State).Inv initial := by
  have hw : w ∈ s.waiters := by rw [hws]; simp
  have hrest : ∀ u ∈ rest, u ∈ s.waiters := fun u hu => by rw [hws]; simp [hu]
  have hc : s.state c = .suspend (.acquire w) := (h.queued w hw).2.2 c hcoro
  have hsorted := h.sorted
  rw [hws, List.pairwise_append] at hsorted
  obtain ⟨-, hsorted, -⟩ := hsorted
  obtain ⟨hlt, hsorted⟩ := List.pairwise_cons.mp hsorted
  have hne : ∀ u ∈ rest, u ≠ w := fun u hu => Nat.ne_of_gt (hlt u hu)
  have hnotin : w ∉ s.granted := fun hin => by
    have hacq := ((h.granted.2 w).mp hin).1
    exact absurd ((h.queued w hw).1.symm.trans hacq) nofun
  have hacquired : ∀ u, (Function.update s.waiter w { s.waiter w with acquired := true } u).acquired =
      (decide (u = w) || s.acquired u) := by
    intro u
    by_cases hu : u = w
    · subst hu; simp only [Function.update_self, decide_true, Bool.true_or]
    · simp only [Function.update_of_ne hu, hu, decide_false, Bool.false_or]
  have hcoros : ∀ u, (Function.update s.waiter w { s.waiter w with acquired := true } u).coro =
      (s.waiter u).coro := by
    intro u
    by_cases hu : u = w
    · subst hu; simp only [Function.update_self]
    · simp only [Function.update_of_ne hu]
  have hwake : ∀ d, ((s.sched.wake c).coros d).state = s.state d ∧
      ((s.sched.wake c).coros d).interrupted = (s.sched.coros d).interrupted ∧
      (((s.sched.wake c).coros d).ready = true → d = c ∨ (s.sched.coros d).ready = true) := by
    intro d
    rw [Scheduler.wake_coros]
    by_cases hd : d = c
    · subst hd
      rw [Function.update_self]
      exact ⟨rfl, rfl, fun _ => Or.inl rfl⟩
    · rw [Function.update_of_ne hd]
      exact ⟨rfl, rfl, Or.inr⟩
  constructor
  · constructor
    · intro u hu
      rw [acquired, hacquired u, h.returns u hu, Bool.or_true]
    · have hpermits := h.permits
      simp only [List.length_append, List.length_singleton]
      omega
    · refine ⟨List.nodup_append.mpr ⟨h.granted.1, List.pairwise_singleton _ _, ?_⟩, fun u => ?_⟩
      · intro a ha b hb
        rw [List.mem_singleton.mp hb]
        rintro rfl
        exact hnotin ha
      · rw [List.mem_append, List.mem_singleton, h.granted.2 u]
        dsimp only [acquired]
        rw [hacquired u, Bool.or_eq_true, decide_eq_true_iff]
        constructor
        · rintro (⟨hu, d, hd⟩ | rfl)
          · exact ⟨Or.inr hu, d, (hwake d).1.trans hd⟩
          · exact ⟨Or.inl rfl, c, (hwake c).1.trans hc⟩
        · rintro ⟨hu, d, hd⟩
          rcases hu with rfl | hu
          · exact Or.inr rfl
          · exact Or.inl ⟨hu, d, (hwake d).1.symm.trans hd⟩
    · refine ⟨List.pairwise_append.mpr ⟨h.fifo.1, List.pairwise_singleton _ _, fun u hu u' hu' => ?_⟩,
        fun u hu u' hu' hlive => ?_⟩
      · rw [List.mem_singleton.mp hu']
        exact h.fifo.2 u hu w hw (by rw [hcoro]; nofun)
      · rcases List.mem_append.mp hu with hu | hu
        · rw [hcoros] at hlive
          exact h.fifo.2 u hu u' (hrest u' hu') hlive
        · rw [List.mem_singleton.mp hu]
          exact hlt u' hu'
    · intro hpos
      have hnone := h.available hpos w hw
      rw [hcoro] at hnone
      cases hnone
  · exact h.sched.wake (h.sched.spawned (c := c) (by rw [state] at hc; rw [hc]; nofun))
  · intro d u hd
    obtain ⟨hlive, hcalls, hplace⟩ := h.waits d u ((hwake d).1.symm.trans hd)
    dsimp only [acquired]
    rw [hcoros, hacquired u, Bool.or_eq_true, decide_eq_true_iff]
    refine ⟨hlive, hcalls, ?_⟩
    rcases hplace with hacq | hin
    · exact Or.inl (Or.inr hacq)
    · rw [hws, List.mem_append, List.mem_cons] at hin
      rcases hin with hin | rfl | hin
      · rw [hdead u hin] at hlive
        cases hlive
      · exact Or.inl (Or.inl rfl)
      · exact Or.inr hin
  · intro d u hd hr
    have hold : s.state d = .suspend (.acquire u) := (hwake d).1.symm.trans hd
    rw [acquired, hacquired u]
    dsimp only
    rw [(hwake d).2.1]
    rcases (hwake d).2.2 hr with rfl | hr
    · rw [hc] at hold
      cases hold
      exact Or.inl (by simp)
    · exact (h.woken d u hold hr).imp (fun hacq => by rw [hacq, Bool.or_true]) id
  · intro u hu
    rw [acquired, hacquired u, hcoros]
    refine ⟨?_, (h.queued u (hrest u hu)).2.1, fun d hd => ?_⟩
    · simp only [hne u hu, decide_false, Bool.false_or]
      exact (h.queued u (hrest u hu)).1
    · exact (hwake d).1.trans ((h.queued u (hrest u hu)).2.2 d hd)
  · exact hsorted
  · intro u hu
    rcases List.mem_append.mp hu with hu | hu
    · exact h.served_lt u hu
    · rw [List.mem_singleton.mp hu]
      exact (h.queued w hw).2.1
  · exact h.returned_lt

theorem Inv.release (h : s.Inv initial) (hheld : 0 < s.held) {s' : State} (hrun : s.release = .ok s') :
    s'.Inv initial := by
  rw [State.release] at hrun
  split at hrun
  · cases hrun
  · split at hrun
    · rename_i w c rest hnext
      cases hrun
      obtain ⟨hcoro, dead, hws, hdead⟩ := nextWaiter_some hnext
      exact h.hand hheld hws hdead hcoro
    · rename_i hnext
      cases hrun
      exact { h with
        permits := by have := h.permits; dsimp only; omega
        fifo := ⟨h.fifo.1, nofun⟩
        available := fun _ => nofun
        waits := fun d u hd => by
          obtain ⟨hlive, hcalls, hplace⟩ := h.waits d u hd
          refine ⟨hlive, hcalls, hplace.imp id fun hin => ?_⟩
          rw [nextWaiter_none hnext u hin] at hlive
          cases hlive
        queued := nofun
        sorted := List.Pairwise.nil }

/-! ## Every run -/

/-- What the coroutine that runs does to itself keeps the calls as they are. -/
theorem Inv.running (h : s.Inv initial) {f : CoroId → Scheduler Waits}
    (hf : ∀ c, s.sched.currCoro = some c → (f c).Inv ∧ ∃ x, (f c).coros = Function.update s.sched.coros c x ∧
      ∀ w, x.state ≠ .suspend (.acquire w)) : (s.running f).Inv initial := by
  rw [State.running]
  split
  · rename_i c hcurr
    obtain ⟨hs, x, hx, hnew⟩ := hf c hcurr
    exact h.withCoro hs hx (h.not_in_call hcurr) hnew
  · exact h

theorem Inv.exec (h : s.Inv initial) {e : Event} (hok : s.allowed e) (hnq : s.Undisturbed e) {s' : State}
    (hrun : s.exec e = .ok s') : s'.Inv initial := by
  cases e with
  | spawn lane =>
    cases hrun
    have hs := h.sched.spawnOwned lane .start
    have hfresh := h.sched.fresh s.sched.coroId (Nat.le_refl _)
    exact h.withCoro hs rfl (by rw [state, hfresh.1]; nofun) nofun
  | resume lane =>
    cases hrun
    exact h.resume hok lane
  | acquire =>
    rw [State.exec] at hrun
    split at hrun
    · rename_i c hcurr
      cases hrun
      exact h.acquire hcurr hnq
    · cases hrun
  | tryAcquire => cases hrun; exact h.tryAcquire
  | release => exact h.release hok hrun
  | cancel c => cases hrun; exact h.cancel c
  | shield shielded =>
    cases hrun
    refine h.running fun c hcurr => ⟨h.sched.set rfl rfl rfl, _, rfl, fun w => ?_⟩
    have hstate := (h.sched.running c).mpr hcurr
    rw [hstate]
    nofun
  | park =>
    cases hrun
    refine h.running fun c hcurr => ?_
    split
    · refine ⟨h.sched, s.sched.coros c, (Function.update_eq_self _ _).symm, h.not_in_call hcurr⟩
    · exact ⟨h.sched.leave hcurr nofun, _, rfl, nofun⟩
  | unpark c =>
    cases hrun
    -- and it waits for no permit
    exact h.withCoro (h.sched.wake hok) Scheduler.wake_coros hnq hnq
  | finish failed =>
    cases hrun
    refine h.running fun c hcurr => ?_
    cases failed
    · exact ⟨h.sched.leave hcurr nofun, _, rfl, nofun⟩
    · exact ⟨h.sched.leave hcurr nofun, _, rfl, nofun⟩

theorem Inv.new {size : Nat} (h : s.New size initial) : s.Inv initial := by
  obtain ⟨-, -, waiter, rfl⟩ := h
  have hnone : ∀ c w, ((Scheduler.empty : Scheduler Waits).coros c).state ≠ .suspend (.acquire w) := nofun
  exact {
    returns := nofun
    permits := rfl
    granted := ⟨List.nodup_nil, fun w => ⟨nofun, fun ⟨_, c, hc⟩ => absurd hc (hnone c w)⟩⟩
    fifo := ⟨List.Pairwise.nil, nofun⟩
    available := fun _ => nofun
    sched := Scheduler.Inv.empty
    waits := fun c w hc => absurd hc (hnone c w)
    woken := fun c w hc => absurd hc (hnone c w)
    queued := nofun
    sorted := List.Pairwise.nil
    served_lt := nofun
    returned_lt := nofun }

end State

theorem State.Inv.of_reachable {size initial : Nat} {s : State} (h : (orderly size initial).Reachable s) :
    s.Inv initial :=
  System.Reachable.invariant (S := orderly size initial) (I := State.Inv initial)
    (fun _ hs => .new hs) (fun _ _ _ hinv hok hrun => hinv.exec hok.1 hok.2 hrun) h

/-- As long as no coroutine waits for a permit with an entry of its own in the run
queue or is woken there from elsewhere, permits are neither lost nor made, and they
are handed out in order. -/
theorem permits_conserved (size initial : Nat) (s : State) (h : (orderly size initial).Reachable s) :
    s.Conserved initial :=
  (State.Inv.of_reachable h).toConserved

/-- A mutex is held by one coroutine at a time. -/
theorem mutex_exclusive (s : State) (h : (orderly 1 1).Reachable s) : s.held ≤ 1 := by
  have hpermits := (State.Inv.of_reachable h).permits
  omega

/-! ## A stale entry -/

/-- A semaphore with one permit before anything happens. -/
def fresh : State := ⟨.empty, 1, 1, [], fun _ => ⟨false, none⟩, 0, 0, [], [], []⟩

/-- One coroutine holds the only permit. The other cancels itself, which puts it into
the run queue, and then waits for the permit in a shield: the entry makes its call
return without one. -/
theorem acquired_without_permit : ∃ s, (system 1 1).Reachable s ∧ ¬ s.Conserved 1 := by
  have h₀ : (system 1 1).Reachable fresh := .init _ ⟨by decide, by decide, _, rfl⟩
  have h₁ := h₀.step _ _ (Event.spawn 0) trivial rfl
  have h₂ := h₁.step _ _ (Event.spawn 0) trivial rfl
  have h₃ := h₂.step _ _ (Event.resume 0) rfl rfl
  have h₄ := h₃.step _ _ Event.acquire rfl rfl
  have h₅ := h₄.step _ _ Event.park rfl rfl
  have h₆ := h₅.step _ _ (Event.resume 0) rfl rfl
  have h₇ := h₆.step _ _ (Event.cancel 1) trivial rfl
  have h₈ := h₇.step _ _ (Event.shield true) rfl rfl
  have h₉ := h₈.step _ _ Event.acquire rfl rfl
  have h₁₀ := h₉.step _ _ (Event.resume 0) rfl rfl
  refine ⟨_, h₁₀, fun hcons => ?_⟩
  exact absurd (hcons.returns 0 (List.mem_singleton_self _)) (by decide)

/-- The same two coroutines without the cancellation: the second waits, and gets the
permit that the first releases. -/
theorem permits_conserved_handed_on : ∃ s : State,
    s.served = [0] ∧ s.returned = [0] ∧ s.held = 1 ∧ s.Conserved 1 := by
  have h₀ : (orderly 1 1).Reachable fresh := .init _ ⟨by decide, by decide, _, rfl⟩
  have h₁ := h₀.step _ _ (Event.spawn 0) ⟨trivial, trivial⟩ rfl
  have h₂ := h₁.step _ _ (Event.spawn 0) ⟨trivial, trivial⟩ rfl
  have h₃ := h₂.step _ _ (Event.resume 0) ⟨rfl, trivial⟩ rfl
  have h₄ := h₃.step _ _ Event.acquire ⟨rfl, fun _ _ hv => nomatch hv⟩ rfl
  have h₅ := h₄.step _ _ Event.park ⟨rfl, trivial⟩ rfl
  have h₆ := h₅.step _ _ (Event.resume 0) ⟨rfl, trivial⟩ rfl
  have h₇ := h₆.step _ _ Event.acquire ⟨rfl, fun _ hc _ _ => by cases hc; rfl⟩ rfl
  have h₈ := h₇.step _ _ Event.release ⟨Nat.zero_lt_one, trivial⟩ rfl
  have h₉ := h₈.step _ _ (Event.resume 0) ⟨rfl, trivial⟩ rfl
  exact ⟨_, rfl, rfl, rfl, permits_conserved 1 1 _ h₉⟩

end Semaphore

end Moonbit

end WitBindgen
