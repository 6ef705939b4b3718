import WitBindgen.Moonbit.OutgoingStream

/-!
# Runs of the bridge of an outgoing stream

The lock is held by at most one call, which is the one with a staged window, or
runs between two phases. What the host has in flight is that call's write, so no
write, cancellation or drop traps, and the window is settled when its call lets go
of the lock.
-/

namespace WitBindgen

namespace Moonbit

/-! ## What operations on the lock show of the coroutines -/

namespace Semaphore.State

variable {s : Semaphore.State} {c d : CoroId} {lane : Lane}

theorem acquire_permit (hv : 0 < s.value) :
    s.acquire c = { s with value := s.value - 1, held := s.held + 1 } := by
  rw [acquire, if_pos hv, tryAcquire, if_pos hv]

theorem acquire_raises (hv : ¬ 0 < s.value) (hi : (s.sched.coros c).interrupted = true) :
    (s.acquire c).sched = s.sched ∧ (s.acquire c).held = s.held ∧
      (s.acquire c).size = s.size := by
  rw [acquire, if_neg hv]
  dsimp only
  rw [if_pos hi]
  exact ⟨rfl, rfl, rfl⟩

theorem acquire_waits (hv : ¬ 0 < s.value) (hi : (s.sched.coros c).interrupted = false) :
    (s.acquire c).sched = s.sched.suspend c (.acquire s.calls) ∧ (s.acquire c).held = s.held ∧
      (s.acquire c).size = s.size := by
  rw [acquire, if_neg hv]
  dsimp only
  rw [if_neg (by rw [hi]; simp)]
  exact ⟨rfl, rfl, rfl⟩

/-- A release changes no coroutine, or wakes one that waits for the permit. -/
theorem release_ok {initial : Nat} (h : s.Inv initial) (hv : s.value < s.size) :
    ∃ s', s.release = .ok s' ∧ s'.held = s.held - 1 ∧ s'.size = s.size ∧
      (s'.sched = s.sched ∨ ∃ d w, s.state d = .suspend (.acquire w) ∧ s'.sched = s.sched.wake d) := by
  rw [release, if_neg (Nat.not_le_of_lt hv)]
  split
  · rename_i w d ws hnext
    obtain ⟨hcoro, dead, hws, -⟩ := nextWaiter_some hnext
    have hw : w ∈ s.waiters := by rw [hws]; simp
    exact ⟨_, rfl, rfl, rfl, Or.inr ⟨d, w, (h.queued w hw).2.2 d hcoro, rfl⟩⟩
  · exact ⟨_, rfl, rfl, rfl, Or.inl rfl⟩

variable {rest : List CoroId}

theorem resume_acquire (hq : s.sched.runLater lane = c :: rest) {w : CallId}
    (hc : s.state c = .suspend (.acquire w)) :
    (s.resume lane).size = s.size ∧ (s.resume lane).sched = s.sched.reschedule lane ∧
      (s.resume lane).held = s.held +
        if (((s.sched.reschedule lane).coros c).interrupted && !s.acquired w) = true then 0 else 1 := by
  have heq : s.resume lane = State.acquireResumed { s with sched := s.sched.reschedule lane } w
      ((s.sched.reschedule lane).coros c).interrupted := by
    rw [resume, hq]
    dsimp only
    rw [hc]
  rw [heq, acquireResumed]
  split
  · exact ⟨rfl, rfl, rfl⟩
  · exact ⟨rfl, rfl, rfl⟩

theorem resume_start (hq : s.sched.runLater lane = c :: rest) (hc : s.state c = .suspend .start) :
    s.resume lane = { s with sched := (s.sched.reschedule lane).shield c false } := by
  rw [resume, hq]
  dsimp only
  rw [hc]

theorem resume_other (hq : s.sched.runLater lane = c :: rest)
    (hacq : ∀ w, s.state c ≠ .suspend (.acquire w)) (hstart : s.state c ≠ .suspend .start) :
    s.resume lane = { s with sched := s.sched.reschedule lane } := by
  rw [resume, hq]
  dsimp only
  split
  · rename_i w hc
    exact absurd hc (hacq w)
  · rename_i hc
    exact absurd hc hstart
  · rfl

end Semaphore.State

theorem Scheduler.reschedule_currCoro {K : Type} {s : Scheduler K} {c : CoroId} {lane : Lane}
    {rest : List CoroId} {k : K} (hq : s.runLater lane = c :: rest)
    (hk : (s.coros c).state = .suspend k) : (s.reschedule lane).currCoro = some c := by
  rw [reschedule, hq]
  dsimp only
  split
  · rfl
  · rename_i hne
    simp only [set, Function.update_self] at hne
    exact absurd hk (hne k)

namespace Outgoing

/-! ## Windows -/

namespace Window

variable {x : Window}

theorem Pending.new (length : Nat) : (Window.new length).Pending :=
  ⟨Nat.zero_le _, rfl, rfl, rfl, rfl⟩

theorem Pending.report (h : x.Pending) {progress : Nat}
    (hle : x.reported.sum + progress ≤ x.length) :
    ({ x with reported := x.reported ++ [progress] } : Window).Pending :=
  { h with le := by simpa [List.sum_append] using hle }

/-- `settle_staging` with the sum of what was reported. -/
theorem Pending.settle (h : x.Pending) : ({ x with
    settled := x.settled ++ [x.reported.sum]
    committed := x.committed ++ List.range' 0 x.reported.sum
    rejected := x.rejected ++ if x.reported.sum < x.length then
      List.range' x.reported.sum (x.length - x.reported.sum) else []
    freed := x.freed + 1 } : Window).Settled := by
  obtain ⟨hle, hsettled, hcommitted, hrejected, hfreed⟩ := h
  refine ⟨by rw [hsettled]; rfl, hle, fun i => ?_, fun i => ?_, by rw [hfreed]⟩
  · dsimp only
    rw [hcommitted, List.nil_append, List.count_range_1']
    simp
  · dsimp only
    rw [hrejected, List.nil_append]
    split
    · rw [List.count_range_1']
      have hend : x.reported.sum + (x.length - x.reported.sum) = x.length := by omega
      rw [hend]
    · rw [List.count_nil, if_neg (by omega)]

end Window

/-! ## The invariant -/

namespace State

/-- What the phase of a coroutine says of it. -/
def Local (s : State) (c : CoroId) : Prop :=
  match s.phase c with
  | .idle => ∀ w, s.sem.state c ≠ .suspend (.acquire w)
  | .acquiring op => (∃ w, s.sem.state c = .suspend (.acquire w)) ∧
      (op = .final → (s.coro c).shielded = true) ∧
      ∀ n, op = .write n → 0 < n ∧ n ≤ s.stagingWindow
  | .looping _ _ => s.sem.sched.currCoro = some c
  | .waiting w total event entry => s.sem.state c = .suspend .other ∧ entry = true ∧
      (event = none → s.copying.isSome = true ∧
        ((s.coro c).ready = true → (s.coro c).interrupted = true)) ∧
      ∀ result, event = some result → s.Offered w total result
  | .cancelling _ _ entry => s.sem.sched.currCoro = some c ∧ entry = true ∧ s.copying.isSome = true

/-- Who has the lock: `owner` is the running coroutine whose call is between two
phases, where there is one. -/
def Locked (s : State) : Option CoroId → Prop
  | some c => s.sem.held = 1 ∧ s.sem.sched.currCoro = some c ∧ s.phase c = .idle ∧
      ∀ d w total, ¬ s.Holds d w total
  | none => s.sem.held = 0 ∧ (∀ d w total, ¬ s.Holds d w total) ∨
      s.sem.held = 1 ∧ ∃ c w total, s.Holds c w total ∧ ∀ d w' total', s.Holds d w' total' → d = c

structure Inv (owner : Option CoroId) (s : State) : Prop where
  calm : s.panicked = none
  sem : s.sem.Inv 1
  size : s.sem.size = 1
  window : 0 < s.stagingWindow
  each : ∀ c, s.Local c
  lock : s.Locked owner
  /-- What is in flight is the write of the call that waits for it or cancels it. -/
  flight : s.copying.isSome = true → ∃ c w total entry, s.phase c = .waiting w total none entry ∨
    s.phase c = .cancelling w total entry
  opened : ∀ c w total, s.Holds c w total → s.writerClosed = false
  holds : ∀ c w total, s.Holds c w total → w < s.staged ∧ (s.windows w).Pending ∧
    total = (s.windows w).reported.sum
  settled : ∀ w < s.staged, (¬ ∃ c total, s.Holds c w total) → (s.windows w).Settled
  writes : ∀ x ∈ s.writes, (∃ w < s.staged, x.staged = some w ∧ (s.windows w).length = x.length) ∧
      x.cleaned = 0 ∨ x.staged = none ∧ x.cleaned = x.length
  drops : s.droppedWritable = if s.writerClosed then 1 else 0
  ended : s.ended = true → s.writerClosed = true

variable {s s' : State} {c d : CoroId} {m : Option CoroId} {w total : Nat}

theorem setPhase_setPhase {p q : Phase} : (s.setPhase c p).setPhase c q = s.setPhase c q := by
  rw [setPhase, setPhase, setPhase, Function.update_idem]

theorem holds_idle (h : s.phase c = .idle) (w total : Nat) : ¬ s.Holds c w total := by
  rintro (hp | ⟨event, entry, hp⟩ | ⟨entry, hp⟩) <;> cases h.symm.trans hp

theorem holds_congr (h : s'.phase c = s.phase c) : s'.Holds c w total ↔ s.Holds c w total := by
  rw [Holds, Holds, h]

/-- One call holds one window. -/
theorem Holds.unique {w' total' : Nat} (h : s.Holds c w total) (h' : s.Holds c w' total') :
    w = w' ∧ total = total' := by
  rcases h with hp | ⟨_, _, hp⟩ | ⟨_, hp⟩ <;> rcases h' with hp' | ⟨_, _, hp'⟩ | ⟨_, hp'⟩ <;>
    cases hp.symm.trans hp' <;> exact ⟨rfl, rfl⟩

/-- The coroutine is waiting for the host, or about to cancel its write. -/
def InFlight (s : State) (c : CoroId) : Prop := ∃ w total entry,
  s.phase c = .waiting w total none entry ∨ s.phase c = .cancelling w total entry

theorem InFlight.holds (h : s.InFlight c) : ∃ w total, s.Holds c w total := by
  obtain ⟨w, total, entry, hp | hp⟩ := h
  · exact ⟨w, total, Or.inr (Or.inl ⟨none, entry, hp⟩)⟩
  · exact ⟨w, total, Or.inr (Or.inr ⟨entry, hp⟩)⟩

/-- What a change of other coroutines, and of who may run, leaves of a coroutine. -/
theorem Local.frame (h : s.Local c) (hphase : s'.phase c = s.phase c)
    (hstate : s'.sem.state c = s.sem.state c)
    (hshield : s.phase c = .acquiring .final → (s'.coro c).shielded = (s.coro c).shielded)
    (hready : (s'.coro c).ready = true → (s.coro c).ready = true ∨ (s'.coro c).interrupted = true)
    (hint : (s.coro c).interrupted = true → (s'.coro c).interrupted = true)
    (hcurr : s.sem.sched.currCoro = some c → s.phase c ≠ .idle → s'.sem.sched.currCoro = some c)
    (hwin : s'.stagingWindow = s.stagingWindow)
    (hcopy : s.InFlight c → s.copying.isSome = true → s'.copying.isSome = true)
    (hoff : ∀ w total result, s.Holds c w total → s.Offered w total result →
      s'.Offered w total result) : s'.Local c := by
  rw [Local, hphase]
  rw [Local] at h
  cases hp : s.phase c with
  | idle =>
    rw [hp] at h
    intro w hw
    exact h w (hstate.symm.trans hw)
  | acquiring op =>
    rw [hp] at h
    obtain ⟨⟨w, hw⟩, hfinal, hlen⟩ := h
    refine ⟨⟨w, hstate.trans hw⟩, ?_, fun n hn => hwin ▸ hlen n hn⟩
    rintro rfl
    exact (hshield hp).trans (hfinal rfl)
  | looping w total =>
    rw [hp] at h
    exact hcurr h (by rw [hp]; nofun)
  | waiting w total event entry =>
    rw [hp] at h
    obtain ⟨hst, hentry, hnone, hsome⟩ := h
    refine ⟨hstate.trans hst, hentry, fun hev => ?_, fun result hev => ?_⟩
    · obtain ⟨hcop, hr⟩ := hnone hev
      refine ⟨hcopy ⟨w, total, entry, Or.inl (hev ▸ hp)⟩ hcop, fun hready' => ?_⟩
      rcases hready hready' with hold | hi
      · exact hint (hr hold)
      · exact hi
    · exact hoff w total result (Or.inr (Or.inl ⟨event, entry, hp⟩)) (hsome result hev)
  | cancelling w total entry =>
    rw [hp] at h
    obtain ⟨hrun, hentry, hcop⟩ := h
    exact ⟨hcurr hrun (by rw [hp]; nofun), hentry, hcopy ⟨w, total, entry, Or.inr hp⟩ hcop⟩

namespace Inv

/-- A coroutine in no call, or running, does not wait for the lock. -/
theorem not_acquiring (h : s.Inv m) (hp : ∀ op, s.phase c ≠ .acquiring op) (w : Semaphore.CallId) :
    s.sem.state c ≠ .suspend (.acquire w) := by
  have hlocal := h.each c
  rw [Local] at hlocal
  cases hpc : s.phase c with
  | idle =>
    rw [hpc] at hlocal
    exact hlocal w
  | acquiring op => exact absurd hpc (hp op)
  | looping w' total =>
    rw [hpc] at hlocal
    exact h.sem.not_in_call hlocal w
  | waiting w' total event entry =>
    rw [hpc] at hlocal
    rw [hlocal.1]
    nofun
  | cancelling w' total entry =>
    rw [hpc] at hlocal
    exact h.sem.not_in_call hlocal.1 w

theorem value_lt (h : s.Inv m) (hheld : s.sem.held = 1) : s.sem.value < s.sem.size := by
  have hp := h.sem.permits
  rw [h.size]
  omega

/-- A call that holds a window has the lock. -/
theorem held (h : s.Inv none) (hc : s.Holds c w total) :
    s.sem.held = 1 ∧ ∀ d w' total', s.Holds d w' total' → d = c := by
  rcases h.lock with ⟨-, hno⟩ | ⟨hheld, c', w₁, t₁, h₁, hall⟩
  · exact absurd hc (hno c w total)
  · have heq := hall c w total hc
    exact ⟨hheld, fun d w' t' hd => (hall d w' t' hd).trans heq.symm⟩

/-- A free lock is nobody's. -/
theorem not_held (h : s.Inv none) (hheld : s.sem.held = 0) (d : CoroId) (w total : Nat) :
    ¬ s.Holds d w total := by
  rcases h.lock with ⟨-, hno⟩ | ⟨hheld', -⟩
  · exact hno d w total
  · omega

/-- Where no call holds a window, nothing is in flight. -/
theorem no_flight (h : s.Inv m) (hno : ∀ d, ¬ s.InFlight d) : s.copying = none := by
  cases hf : s.copying with
  | none => rfl
  | some n =>
    obtain ⟨d, w, total, entry, hp⟩ := h.flight (by rw [hf]; rfl)
    exact absurd ⟨w, total, entry, hp⟩ (hno d)

theorem dropped_zero (h : s.Inv m) (hopen : s.writerClosed = false) : s.droppedWritable = 0 := by
  have hd := h.drops
  rw [hopen] at hd
  exact hd

/-! ## Ends of calls -/

/-- The writable end is dropped once. -/
theorem closeWriter (h : s.Inv (some c)) :
    ∃ s', s.closeWriter = .ok s' ∧ s'.Inv (some c) ∧ s'.writerClosed = true := by
  obtain ⟨-, -, -, hno⟩ := h.lock
  rw [State.closeWriter]
  by_cases hclosed : s.writerClosed = true
  · rw [if_pos hclosed]
    exact ⟨s, rfl, h, hclosed⟩
  · have hdrops := h.dropped_zero (Bool.not_eq_true _ ▸ hclosed)
    have hcopy : s.copying = none := h.no_flight fun d hd => by
      obtain ⟨w, total, hd⟩ := hd.holds
      exact hno d w total hd
    rw [if_neg hclosed, if_neg (by rw [hcopy, hdrops]; simp)]
    refine ⟨_, rfl, { h with
      each := fun d => (h.each d).frame rfl rfl (fun _ => rfl) Or.inl id (fun hr _ => hr) rfl
        (fun _ => id) fun _ _ _ _ => id
      opened := fun d w total hd => absurd hd (hno d w total)
      drops := by rw [hdrops]; rfl
      ended := fun _ => rfl }, rfl⟩

/-- The lock is released, and nobody else changes but by being woken. -/
theorem leave (h : s.Inv (some c)) : ∃ s', s.leave c = .ok s' ∧ s'.Inv none ∧
    s'.writerClosed = s.writerClosed ∧ s'.phase c = .idle ∧ s'.sem.sched.currCoro = some c := by
  obtain ⟨hheld, hcurr, hidle, hno⟩ := h.lock
  obtain ⟨sem, hok, hheld', hsize, hsched⟩ := Semaphore.State.release_ok h.sem (h.value_lt hheld)
  have hphase : s.setPhase c .idle = s := by rw [setPhase, ← hidle, Function.update_eq_self]
  have hcurr' : sem.sched.currCoro = s.sem.sched.currCoro := by
    rcases hsched with heq | ⟨d', w, -, heq⟩
    · rw [heq]
    · rw [heq, Scheduler.wake_currCoro]
  have hleave : s.leave c = .ok { s with sem := sem } := by
    rw [State.leave, hok, hphase]
    rfl
  refine ⟨_, hleave, { h with
    sem := h.sem.release (by omega) hok
    size := hsize.trans h.size
    each := fun d => ?_
    lock := Or.inl ⟨by dsimp only; omega, hno⟩ }, rfl, hidle, hcurr'.trans hcurr⟩
  rcases hsched with heq | ⟨d', w, hd', heq⟩
  · exact (h.each d).frame rfl (by rw [Semaphore.State.state, heq]) (fun _ => by rw [coro, heq])
      (fun hr => Or.inl (by rw [coro, heq] at hr; exact hr)) (fun hi => by rw [coro, heq]; exact hi)
      (fun hr _ => hcurr'.trans hr) rfl (fun _ => id) fun _ _ _ _ => id
  · -- whoever is woken waits for the lock, and so not for the host
    by_cases hd : d = d'
    · have hlocal := h.each d
      rw [Local] at hlocal ⊢
      dsimp only
      cases hp : s.phase d with
      | acquiring op =>
        rw [hp] at hlocal
        obtain ⟨⟨w', hw'⟩, hfinal, hlen⟩ := hlocal
        refine ⟨⟨w', ?_⟩, fun hop => ?_, hlen⟩
        · rw [Semaphore.State.state, heq, Scheduler.wake_state]
          exact hw'
        · rw [coro, heq, Scheduler.wake_coros, hd, Function.update_self]
          exact hd ▸ hfinal hop
      | _ => exact absurd (hd ▸ hd') (h.not_acquiring (by rw [hp]; simp) w)
    · have hsame : sem.sched.coros d = s.coro d := by
        rw [heq, Scheduler.wake_coros, Function.update_of_ne hd]
      exact (h.each d).frame rfl (congrArg Coroutine.state hsame)
        (fun _ => congrArg Coroutine.shielded hsame)
        (fun hr => Or.inl (by rw [coro, hsame] at hr; exact hr))
        (fun hi => by rw [coro, hsame]; exact hi) (fun hr _ => hcurr'.trans hr) rfl (fun _ => id)
        fun _ _ _ _ => id

/-- A call with the lock stages its values. -/
theorem stage (h : s.Inv (some c)) (hopen : s.writerClosed = false) (length : Nat) :
    (s.stage c length length).Inv none := by
  obtain ⟨hheld, hcurr, -, hno⟩ := h.lock
  have hself : (s.stage c length length).phase c = .looping s.staged 0 := Function.update_self ..
  have hphase : ∀ d, d ≠ c → (s.stage c length length).phase d = s.phase d :=
    fun d hd => Function.update_of_ne hd ..
  have hholds : ∀ d w total, (s.stage c length length).Holds d w total →
      d = c ∧ w = s.staged ∧ total = 0 := by
    intro d w total hd
    by_cases hdc : d = c
    · subst hdc
      obtain ⟨rfl, rfl⟩ := hd.unique (Or.inl hself)
      exact ⟨rfl, rfl, rfl⟩
    · exact absurd ((holds_congr (hphase d hdc)).mp hd) (hno d w total)
  have hnew : (s.stage c length length).windows s.staged = .new length := Function.update_self ..
  have hold : ∀ w, w < s.staged → (s.stage c length length).windows w = s.windows w :=
    fun w hw => Function.update_of_ne (Nat.ne_of_lt hw) ..
  have hcopy : s.copying = none := h.no_flight fun d hd => by
    obtain ⟨w, total, hd⟩ := hd.holds
    exact hno d w total hd
  refine { h with
    each := fun d => ?_
    lock := Or.inr ⟨hheld, c, s.staged, 0, Or.inl hself, fun d w total hd => (hholds d w total hd).1⟩
    flight := fun hf => ?_
    opened := fun _ _ _ _ => hopen
    holds := fun d w total hd => ?_
    settled := fun w hw hn => ?_
    writes := fun x hx => ?_ }
  · by_cases hd : d = c
    · subst hd
      rw [Local, hself]
      exact hcurr
    · exact (h.each d).frame (hphase d hd) rfl (fun _ => rfl) Or.inl id (fun hr _ => hr) rfl
        (fun _ => id) fun w total _ hd => absurd hd (hno d w total)
  · have hf' : s.copying.isSome = true := hf
    rw [hcopy] at hf'
    cases hf'
  · obtain ⟨-, rfl, rfl⟩ := hholds d w total hd
    rw [hnew]
    exact ⟨Nat.lt_succ_self _, .new length, rfl⟩
  · have hlt : w < s.staged := by
      refine Nat.lt_of_le_of_ne (Nat.le_of_lt_succ hw) ?_
      rintro rfl
      exact hn ⟨c, 0, Or.inl hself⟩
    rw [hold w hlt]
    exact h.settled w hlt fun ⟨d, total, hd⟩ => hno d w total hd
  · rcases List.mem_append.mp hx with hx | hx
    · rcases h.writes x hx with ⟨⟨w, hw, hst, hlen⟩, hcl⟩ | hcl
      · exact Or.inl ⟨⟨w, Nat.lt_succ_of_lt hw, hst, by rw [hold w hw]; exact hlen⟩, hcl⟩
      · exact Or.inr hcl
    · obtain rfl := List.mem_singleton.mp hx
      exact Or.inl ⟨⟨s.staged, Nat.lt_succ_self _, rfl, by rw [hnew]; rfl⟩, rfl⟩

/-- Values that find the writer closed are cleaned up. -/
theorem cleaned (h : s.Inv (some c)) (length : Nat) :
    Inv (some c) { s with writes := s.writes ++ [⟨length, none, length⟩] } :=
  { h with
    each := fun d => (h.each d).frame rfl rfl (fun _ => rfl) Or.inl id (fun hr _ => hr) rfl
      (fun _ => id) fun _ _ _ _ => id
    writes := fun x hx => by
      rcases List.mem_append.mp hx with hx | hx
      · exact h.writes x hx
      · obtain rfl := List.mem_singleton.mp hx
        exact Or.inr ⟨rfl, rfl⟩ }

/-- The running coroutine, in no call, puts its shield on or takes it off. -/
theorem shield (h : s.Inv none) (hcurr : s.sem.sched.currCoro = some c) (hp : s.phase c = .idle)
    (b : Bool) : Inv none { s with sem := { s.sem with sched := s.sem.sched.shield c b } } := by
  have hsem : Semaphore.State.Inv 1 { s.sem with sched := s.sem.sched.shield c b } := by
    refine h.sem.withCoro (h.sem.sched.set rfl rfl rfl) rfl (h.sem.not_in_call hcurr) fun w => ?_
    exact h.sem.not_in_call hcurr w
  refine { h with sem := hsem, each := fun d => ?_ }
  by_cases hd : d = c
  · subst hd
    have hself : (s.sem.sched.shield d b).coros d = { s.coro d with shielded := b } :=
      Function.update_self ..
    rw [Local, hp]
    intro w hw
    exact h.sem.not_in_call hcurr w ((congrArg Coroutine.state hself).symm.trans hw)
  · have hsame : (s.sem.sched.shield c b).coros d = s.coro d := Function.update_of_ne hd ..
    exact (h.each d).frame rfl (congrArg Coroutine.state hsame)
      (fun _ => congrArg Coroutine.shielded hsame)
      (fun hr => Or.inl (by rw [coro, hsame] at hr; exact hr))
      (fun hi => by rw [coro, hsame]; exact hi) (fun hr _ => hr) rfl (fun _ => id) fun _ _ _ _ => id

/-- A call goes on with the lock. -/
theorem enter (h : s.Inv (some c)) (op : Op)
    (hop : ∀ n, op = .write n → 0 < n ∧ n ≤ s.stagingWindow) :
    ∃ s', s.enter c op = .ok s' ∧ s'.Inv none := by
  cases op with
  | write n =>
    obtain ⟨hpos, hle⟩ := hop n rfl
    have hlen : (if n < s.stagingWindow then n else s.stagingWindow) = n := by split <;> omega
    cases hclosed : s.writerClosed with
    | true =>
      obtain ⟨s', hok, h', -⟩ := (h.cleaned n).leave
      refine ⟨s', ?_, h'⟩
      rw [State.enter, if_pos (by rw [hclosed]; rfl), hok]
    | false =>
      refine ⟨_, ?_, h.stage hclosed n⟩
      rw [State.enter, if_neg (by rw [hclosed]; simp; omega), hlen]
  | close =>
    obtain ⟨s₁, hok₁, h₁, -⟩ := h.closeWriter
    obtain ⟨s₂, hok₂, h₂, -⟩ := h₁.leave
    exact ⟨s₂, by rw [State.enter, hok₁, ← hok₂]; rfl, h₂⟩
  | final =>
    obtain ⟨s₁, hok₁, h₁, hclosed⟩ := h.closeWriter
    obtain ⟨s₂, hok₂, h₂, hsame, hidle, hcurr⟩ := h₁.leave
    have h₃ := h₂.shield hcurr hidle false
    have hok : s.enter c .final = .ok { s₂ with
        ended := true, sem := { s₂.sem with sched := s₂.sem.sched.shield c false } } := by
      rw [State.enter, hok₁]
      dsimp only [bind, Except.bind]
      rw [hok₂]
    refine ⟨_, hok,
      { h₃ with
        each := fun d => (h₃.each d).frame rfl rfl (fun _ => rfl) Or.inl id (fun hr _ => hr) rfl
          (fun _ => id) fun _ _ _ _ => id
        ended := fun _ => hsame.trans hclosed }⟩

/-! ## The loop -/

/-- What the host reported is added to the total. -/
theorem advance (h : s.Inv none) (progress : Nat) (hp : s.phase c = .looping w total)
    (hle : total + progress ≤ (s.windows w).length) :
    (s.advance c w total progress).Inv none := by
  have hc : s.Holds c w total := Or.inl hp
  obtain ⟨hheld, hall⟩ := h.held hc
  obtain ⟨hw, hpend, rfl⟩ := h.holds c w total hc
  have hcurr : s.sem.sched.currCoro = some c := by
    have hlocal := h.each c
    rw [Local, hp] at hlocal
    exact hlocal
  let s' := s.advance c w (s.windows w).reported.sum progress
  have hself : s'.phase c = .looping w ((s.windows w).reported.sum + progress) :=
    Function.update_self ..
  have hphase : ∀ d, d ≠ c → s'.phase d = s.phase d := fun d hd => Function.update_of_ne hd ..
  have hwin : s'.windows w = { s.windows w with reported := (s.windows w).reported ++ [progress] } :=
    Function.update_self ..
  have hwins : ∀ v, v ≠ w → s'.windows v = s.windows v := fun v hv => Function.update_of_ne hv ..
  have hlens : ∀ v, (s'.windows v).length = (s.windows v).length := by
    intro v
    by_cases hv : v = w
    · rw [hv, hwin]
    · rw [hwins v hv]
  have hholds : ∀ d v t, s'.Holds d v t →
      d = c ∧ v = w ∧ t = (s.windows w).reported.sum + progress := by
    intro d v t hd
    by_cases hdc : d = c
    · subst hdc
      obtain ⟨rfl, rfl⟩ := hd.unique (Or.inl hself)
      exact ⟨rfl, rfl, rfl⟩
    · exact absurd (hall d v t ((holds_congr (hphase d hdc)).mp hd)) hdc
  show s'.Inv none
  refine { h with
    each := fun d => ?_
    lock := Or.inr ⟨hheld, c, w, _, Or.inl hself, fun d v t hd => (hholds d v t hd).1⟩
    flight := fun hf => ?_
    opened := fun _ _ _ _ => h.opened c w _ hc
    holds := fun d v t hd => ?_
    settled := fun v hv hn => ?_
    writes := fun x hx => ?_ }
  · by_cases hd : d = c
    · subst hd
      rw [Local, hself]
      exact hcurr
    · exact (h.each d).frame (hphase d hd) rfl (fun _ => rfl) Or.inl id (fun hr _ => hr) rfl
        (fun _ => id) fun v t _ hh => absurd (hall d v t hh) hd
  · obtain ⟨d, v, t, entry, hd⟩ := h.flight hf
    have hdc : d = c := by
      obtain ⟨v, t, hh⟩ := InFlight.holds ⟨v, t, entry, hd⟩
      exact hall d v t hh
    subst hdc
    rcases hd with hd | hd <;> cases hp.symm.trans hd
  · obtain ⟨rfl, rfl, rfl⟩ := hholds d v t hd
    rw [hwin]
    exact ⟨hw, hpend.report hle, by simp [List.sum_append]⟩
  · have hne : v ≠ w := by
      rintro rfl
      exact hn ⟨c, _, Or.inl hself⟩
    rw [hwins v hne]
    refine h.settled v hv ?_
    rintro ⟨d, t, hd⟩
    obtain rfl := hall d v t hd
    exact hne (hd.unique hc).1
  · rcases h.writes x hx with ⟨⟨v, hv, hst, hlen⟩, hcl⟩ | hcl
    · exact Or.inl ⟨⟨v, hv, hst, (hlens v).trans hlen⟩, hcl⟩
    · exact Or.inr hcl

/-- The window is settled by what was reported for it. -/
theorem settle (h : s.Inv none) (hp : s.phase c = .looping w total) :
    ((s.settleStaging w total).setPhase c .idle).Inv (some c) := by
  have hc : s.Holds c w total := Or.inl hp
  obtain ⟨hheld, hall⟩ := h.held hc
  obtain ⟨hw, hpend, rfl⟩ := h.holds c w total hc
  have hcurr : s.sem.sched.currCoro = some c := by
    have hlocal := h.each c
    rw [Local, hp] at hlocal
    exact hlocal
  let s' := (s.settleStaging w (s.windows w).reported.sum).setPhase c .idle
  have hself : s'.phase c = .idle := Function.update_self ..
  have hphase : ∀ d, d ≠ c → s'.phase d = s.phase d := fun d hd => Function.update_of_ne hd ..
  have hwin : s'.windows w = { s.windows w with
      settled := (s.windows w).settled ++ [(s.windows w).reported.sum]
      committed := (s.windows w).committed ++ List.range' 0 (s.windows w).reported.sum
      rejected := (s.windows w).rejected ++
        if (s.windows w).reported.sum < (s.windows w).length then
          List.range' (s.windows w).reported.sum
            ((s.windows w).length - (s.windows w).reported.sum) else []
      freed := (s.windows w).freed + 1 } := Function.update_self ..
  have hwins : ∀ v, v ≠ w → s'.windows v = s.windows v := fun v hv => Function.update_of_ne hv ..
  have hlens : ∀ v, (s'.windows v).length = (s.windows v).length := by
    intro v
    by_cases hv : v = w
    · rw [hv, hwin]
    · rw [hwins v hv]
  have hnone : ∀ d v t, ¬ s'.Holds d v t := by
    intro d v t hd
    by_cases hdc : d = c
    · subst hdc
      exact holds_idle hself v t hd
    · exact hdc (hall d v t ((holds_congr (hphase d hdc)).mp hd))
  show s'.Inv (some c)
  refine { h with
    each := fun d => ?_
    lock := ⟨hheld, hcurr, hself, hnone⟩
    flight := fun hf => ?_
    opened := fun d v t hd => absurd hd (hnone d v t)
    holds := fun d v t hd => absurd hd (hnone d v t)
    settled := fun v hv _ => ?_
    writes := fun x hx => ?_ }
  · by_cases hd : d = c
    · subst hd
      rw [Local, hself]
      exact h.sem.not_in_call hcurr
    · exact (h.each d).frame (hphase d hd) rfl (fun _ => rfl) Or.inl id (fun hr _ => hr) rfl
        (fun _ => id) fun v t _ hh => absurd (hall d v t hh) hd
  · obtain ⟨d, v, t, entry, hd⟩ := h.flight hf
    have hdc : d = c := by
      obtain ⟨v, t, hh⟩ := InFlight.holds ⟨v, t, entry, hd⟩
      exact hall d v t hh
    subst hdc
    rcases hd with hd | hd <;> cases hp.symm.trans hd
  · by_cases hv' : v = w
    · rw [hv', hwin]
      exact hpend.settle
    · rw [hwins v hv']
      refine h.settled v hv ?_
      rintro ⟨d, t, hd⟩
      obtain rfl := hall d v t hd
      exact hv' (hd.unique hc).1
  · rcases h.writes x hx with ⟨⟨v, hv, hst, hlen⟩, hcl⟩ | hcl
    · exact Or.inl ⟨⟨v, hv, hst, (hlens v).trans hlen⟩, hcl⟩
    · exact Or.inr hcl

end Inv

/-- Ending a call does not look at its phase. -/
theorem leave_setPhase {p : Phase} : (s.setPhase c p).leave c = s.leave c := by
  rw [leave, leave, setPhase_setPhase]
  rfl

theorem closeWriter_setPhase {p : Phase} : (s.setPhase c p).closeWriter =
    (s.closeWriter).map fun s' => s'.setPhase c p := by
  rw [closeWriter, closeWriter, setPhase]
  dsimp only
  split
  · rfl
  · split <;> rfl

theorem closeLeave_setPhase {p : Phase} : (do
    let s' ← (s.setPhase c p).closeWriter
    s'.leave c) = (do
      let s' ← s.closeWriter
      s'.leave c) := by
  rw [closeWriter_setPhase]
  cases hok : s.closeWriter with
  | error msg => rfl
  | ok s₁ => exact leave_setPhase

namespace Inv

/-- A window is settled, and its call ends; `close` says whether the writable end
is dropped before. -/
theorem finish (h : s.Inv none) (hp : s.phase c = .looping w total) :
    (∃ s', (s.settleStaging w total).leave c = .ok s' ∧ s'.Inv none) ∧
      ∃ s', (do
        let s' ← (s.settleStaging w total).closeWriter
        s'.leave c) = .ok s' ∧ s'.Inv none := by
  have hsettled := h.settle hp
  constructor
  · obtain ⟨s', hok, h', -⟩ := hsettled.leave
    exact ⟨s', leave_setPhase.symm.trans hok, h'⟩
  · obtain ⟨s₁, hok₁, h₁, -⟩ := hsettled.closeWriter
    obtain ⟨s₂, hok₂, h₂, -⟩ := h₁.leave
    refine ⟨s₂, ?_, h₂⟩
    rw [← closeLeave_setPhase, hok₁, ← hok₂]
    rfl

/-- The loop goes on with a result of the host. -/
theorem written (h : s.Inv none) (hp : s.phase c = .looping w total) {result : StreamResult}
    (hoff : s.Offered w total result) : ∃ s', s.written c w total result = .ok s' ∧ s'.Inv none := by
  have hadv := h.advance result.progress hp hoff
  have hphase : (s.advance c w total result.progress).phase c =
      .looping w (total + result.progress) := Function.update_self ..
  obtain ⟨hleave, hclose⟩ := hadv.finish hphase
  rw [State.written]
  split
  · exact hclose
  · split
    · exact ⟨_, rfl, hadv⟩
    · exact hleave

end Inv

/-! ## One coroutine moves -/

/-- The coroutines and the lock do as `sem` says, and one coroutine is at another
phase. -/
def moved (s : State) (sem : Semaphore.State) (c : CoroId) (p : Phase) (copying : Option Nat) :
    State :=
  { s with sem := sem, phase := Function.update s.phase c p, copying := copying }

/-- Only `c` is touched, and who runs in a call goes on running. -/
structure Touches (s : State) (sem : Semaphore.State) (c : CoroId) : Prop where
  inv : sem.Inv 1
  size : sem.size = s.sem.size
  same : ∀ d, d ≠ c → sem.sched.coros d = s.coro d
  curr : ∀ d, d ≠ c → s.phase d ≠ .idle → s.sem.sched.currCoro = some d →
    sem.sched.currCoro = some d

variable {sem : Semaphore.State} {p : Phase} {copying : Option Nat}

theorem moved_self : (s.moved sem c p copying).phase c = p := Function.update_self ..

theorem moved_ne (hd : d ≠ c) : (s.moved sem c p copying).phase d = s.phase d :=
  Function.update_of_ne hd ..

theorem moved_holds (hd : d ≠ c) : (s.moved sem c p copying).Holds d w total ↔ s.Holds d w total :=
  holds_congr (moved_ne hd)

namespace Inv

theorem others (h : s.Inv m) (ht : s.Touches sem c) (hd : d ≠ c)
    (hcopy : s.InFlight d → s.copying.isSome = true → copying.isSome = true) :
    (s.moved sem c p copying).Local d := by
  have hsame := ht.same d hd
  exact (h.each d).frame (moved_ne hd) (congrArg Coroutine.state hsame)
    (fun _ => congrArg Coroutine.shielded hsame)
    (fun hr => Or.inl ((congrArg Coroutine.ready hsame).symm.trans hr))
    (fun hi => (congrArg Coroutine.interrupted hsame).trans hi)
    (fun hr hp => ht.curr d hd hp hr) rfl hcopy fun _ _ _ _ => id

/-- A call with a window is at another phase with it. -/
theorem rephase (h : s.Inv none) (ht : s.Touches sem c) (hheld : sem.held = s.sem.held)
    (hc : s.Holds c w total) (hc' : (s.moved sem c p copying).Holds c w total)
    (hlocal : (s.moved sem c p copying).Local c)
    (hflight : copying.isSome = true → (s.moved sem c p copying).InFlight c) :
    (s.moved sem c p copying).Inv none := by
  obtain ⟨hone, hall⟩ := h.held hc
  have hholds : ∀ d v t, (s.moved sem c p copying).Holds d v t → s.Holds d v t := by
    intro d v t hd
    by_cases hdc : d = c
    · subst hdc
      obtain ⟨rfl, rfl⟩ := hd.unique hc'
      exact hc
    · exact (moved_holds hdc).mp hd
  refine { h with
    sem := ht.inv
    size := ht.size.trans h.size
    each := fun d => ?_
    lock := Or.inr ⟨hheld.trans hone, c, w, total, hc', fun d v t hd => hall d v t (hholds d v t hd)⟩
    flight := fun hf => ⟨c, hflight hf⟩
    opened := fun d v t hd => h.opened d v t (hholds d v t hd)
    holds := fun d v t hd => h.holds d v t (hholds d v t hd)
    settled := fun v hv hn => h.settled v hv ?_ }
  · by_cases hd : d = c
    · exact hd ▸ hlocal
    · refine h.others ht hd fun hfl => ?_
      obtain ⟨v, t, hh⟩ := hfl.holds
      exact absurd (hall d v t hh) hd
  · rintro ⟨d, t, hd⟩
    by_cases hdc : d = c
    · subst hdc
      obtain ⟨rfl, rfl⟩ := hd.unique hc
      exact hn ⟨d, _, hc'⟩
    · exact hn ⟨d, t, (moved_holds hdc).mpr hd⟩

/-- A call without a window is at another phase without one. -/
theorem aside (h : s.Inv none) (ht : s.Touches sem c) (hheld : sem.held = s.sem.held)
    (hc : ∀ w total, ¬ s.Holds c w total)
    (hc' : ∀ w total, ¬ (s.moved sem c p s.copying).Holds c w total)
    (hlocal : (s.moved sem c p s.copying).Local c) : (s.moved sem c p s.copying).Inv none := by
  have hholds : ∀ d v t, (s.moved sem c p s.copying).Holds d v t ↔ s.Holds d v t := by
    intro d v t
    by_cases hdc : d = c
    · subst hdc
      exact iff_of_false (hc' v t) (hc v t)
    · exact moved_holds hdc
  refine { h with
    sem := ht.inv
    size := ht.size.trans h.size
    each := fun d => ?_
    lock := ?_
    flight := fun hf => ?_
    opened := fun d v t hd => h.opened d v t ((hholds d v t).mp hd)
    holds := fun d v t hd => h.holds d v t ((hholds d v t).mp hd)
    settled := fun v hv hn => h.settled v hv fun ⟨d, t, hd⟩ => hn ⟨d, t, (hholds d v t).mpr hd⟩ }
  · by_cases hd : d = c
    · exact hd ▸ hlocal
    · exact h.others ht hd fun _ => id
  · rcases h.lock with ⟨hzero, hno⟩ | ⟨hone, d, v, t, hd, hall⟩
    · exact Or.inl ⟨hheld.trans hzero, fun d v t hd => hno d v t ((hholds d v t).mp hd)⟩
    · exact Or.inr ⟨hheld.trans hone, d, v, t, (hholds d v t).mpr hd,
        fun d' v' t' hd' => hall d' v' t' ((hholds d' v' t').mp hd')⟩
  · obtain ⟨d, v, t, entry, hd⟩ := h.flight hf
    have hdc : d ≠ c := by
      rintro rfl
      obtain ⟨v, t, hh⟩ := InFlight.holds ⟨v, t, entry, hd⟩
      exact hc v t hh
    exact ⟨d, v, t, entry, by rw [moved_ne hdc]; exact hd⟩

/-- A call gets the lock. -/
theorem gain (h : s.Inv none) (ht : s.Touches sem c) (hzero : s.sem.held = 0)
    (hheld : sem.held = 1) (hcurr : sem.sched.currCoro = some c) :
    (s.moved sem c .idle s.copying).Inv (some c) := by
  have hno := h.not_held hzero
  have hidle : (s.moved sem c .idle s.copying).phase c = .idle := moved_self
  have hno' : ∀ d v t, ¬ (s.moved sem c .idle s.copying).Holds d v t := by
    intro d v t hd
    by_cases hdc : d = c
    · subst hdc
      exact holds_idle hidle v t hd
    · exact hno d v t ((moved_holds hdc).mp hd)
  refine { h with
    sem := ht.inv
    size := ht.size.trans h.size
    each := fun d => ?_
    lock := ⟨hheld, hcurr, hidle, hno'⟩
    flight := fun hf => ?_
    opened := fun d v t hd => absurd hd (hno' d v t)
    holds := fun d v t hd => absurd hd (hno' d v t)
    settled := fun v hv _ => h.settled v hv fun ⟨d, t, hd⟩ => hno d v t hd }
  · by_cases hd : d = c
    · subst hd
      rw [Local, hidle]
      exact ht.inv.not_in_call hcurr
    · exact h.others ht hd fun _ => id
  · obtain ⟨d, v, t, entry, hd⟩ := h.flight hf
    obtain ⟨v, t, hh⟩ := InFlight.holds ⟨v, t, entry, hd⟩
    exact absurd hh (hno d v t)

/-! ## Writes to the host -/

/-- The call with a window that runs finds the writable end free. -/
theorem free (h : s.Inv none) (hp : s.phase c = .looping w total) :
    s.copying = none ∧ s.droppedWritable = 0 := by
  have hc : s.Holds c w total := Or.inl hp
  refine ⟨h.no_flight fun d hd => ?_, h.dropped_zero (h.opened c w total hc)⟩
  obtain ⟨v, t, hh⟩ := hd.holds
  obtain rfl := (h.held hc).2 d v t hh
  obtain ⟨v, t, entry, hd | hd⟩ := hd <;> cases hp.symm.trans hd

theorem touches_refl (h : s.Inv m) : s.Touches s.sem c where
  inv := h.sem
  size := rfl
  same _ _ := rfl
  curr _ _ _ hr := hr

/-- The coroutine in a call that runs waits for the host. -/
theorem touches_suspend (h : s.Inv m) (hcurr : s.sem.sched.currCoro = some c) :
    s.Touches { s.sem with sched := s.sem.sched.suspend c .other } c where
  inv := h.sem.withCoro (h.sem.sched.leave hcurr nofun) rfl (h.sem.not_in_call hcurr) nofun
  size := rfl
  same _ hd := Function.update_of_ne hd ..
  curr _ hd _ hr := absurd (Option.some.inj (hr.symm.trans hcurr)) hd

theorem offer (h : s.Inv none) (hcurr : s.sem.sched.currCoro = some c)
    (hp : s.phase c = .looping w total) {reply : Option StreamResult}
    (hoff : ∀ result, reply = some result → s.Offered w total result)
    (hs : reply = none → (s.coro c).interrupted = false → (s.coro c).ready = false) :
    ∃ s', s.offer c w total reply = .ok s' ∧ s'.Inv none := by
  obtain ⟨hcopy, hdrop⟩ := h.free hp
  have hc : s.Holds c w total := Or.inl hp
  have hfree : ¬ (s.copying.isSome || decide (s.droppedWritable ≠ 0)) = true := by
    rw [hcopy, hdrop]
    decide
  cases reply with
  | some result =>
    rw [State.offer, if_neg hfree]
    exact h.written hp (hoff result rfl)
  | none =>
    rw [State.offer, if_neg hfree]
    dsimp only
    cases hi : (s.coro c).interrupted with
    | true =>
      refine ⟨_, if_pos rfl, ?_⟩
      have hphase : (s.moved s.sem c (.cancelling w total true)
          (some ((s.windows w).length - total))).phase c = .cancelling w total true := moved_self
      refine h.rephase h.touches_refl rfl hc (Or.inr (Or.inr ⟨true, hphase⟩)) ?_
        fun _ => ⟨w, total, true, Or.inr hphase⟩
      rw [Local, hphase]
      exact ⟨hcurr, rfl, rfl⟩
    | false =>
      refine ⟨_, if_neg nofun, ?_⟩
      have hphase : (s.moved { s.sem with sched := s.sem.sched.suspend c .other } c
          (.waiting w total none true) (some ((s.windows w).length - total))).phase c =
            .waiting w total none true := moved_self
      refine h.rephase (h.touches_suspend hcurr) rfl hc
        (Or.inr (Or.inl ⟨none, true, hphase⟩)) ?_ fun _ => ⟨w, total, true, Or.inl hphase⟩
      have hself : (s.sem.sched.suspend c .other).coros c =
          { s.coro c with state := .suspend .other } := Function.update_self ..
      rw [Local, hphase]
      refine ⟨congrArg Coroutine.state hself, rfl, fun _ => ⟨rfl, fun hr => ?_⟩, nofun⟩
      have hready := (congrArg Coroutine.ready hself).symm.trans hr
      exact absurd ((hs rfl hi).symm.trans hready) nofun

theorem cancelWrite (h : s.Inv none) {entry : Bool} (hp : s.phase c = .cancelling w total entry)
    {result : StreamResult} (hoff : s.Offered w total result) :
    ∃ s', s.cancelWrite c w total entry result = .ok s' ∧ s'.Inv none := by
  have hlocal := h.each c
  rw [Local, hp] at hlocal
  obtain ⟨hcurr, rfl, hcopy⟩ := hlocal
  have hphase : (s.moved s.sem c (.looping w total) none).phase c = .looping w total := moved_self
  have hland : (s.moved s.sem c (.looping w total) none).Inv none := by
    refine h.rephase h.touches_refl rfl (Or.inr (Or.inr ⟨true, hp⟩)) (Or.inl hphase) ?_ nofun
    rw [Local, hphase]
    exact hcurr
  have hadv := hland.advance result.progress hphase hoff
  have heq : (s.moved s.sem c (.looping w total) none).advance c w total result.progress =
      State.advance { s with copying := none } c w total result.progress := by
    simp only [State.advance, moved, setWindow, setPhase, Function.update_idem]
  rw [heq] at hadv
  have hend : (State.advance { s with copying := none } c w total result.progress).phase c =
      .looping w (total + result.progress) := Function.update_self ..
  obtain ⟨s', hok, h'⟩ := (hadv.finish hend).2
  refine ⟨s', ?_, h'⟩
  have hsome : s.copying.isNone = false := by
    cases hcop : s.copying with
    | none =>
      rw [hcop] at hcopy
      cases hcopy
    | some n => rfl
  rw [State.cancelWrite, if_neg (by decide), if_neg (by rw [hsome]; decide)]
  exact hok

/-! ## Taking the lock -/

theorem moved_idle (hp : s.phase c = .idle) : s.moved sem c .idle s.copying = { s with sem := sem } := by
  rw [moved, ← hp, Function.update_eq_self]

theorem beginCall (h : s.Inv none) (hcurr : s.sem.sched.currCoro = some c) (hp : s.phase c = .idle)
    {op : Op} (hop : ∀ n, op = .write n → 0 < n ∧ n ≤ s.stagingWindow)
    (hfinal : op = .final → (s.coro c).shielded = true)
    (hready : s.sem.value = 0 → (s.coro c).interrupted = false → (s.coro c).ready = false) :
    ∃ s', s.beginCall c op = .ok s' ∧ s'.Inv none := by
  have hinv : (s.sem.acquire c).Inv 1 := by
    refine h.sem.acquire hcurr fun d hd hv hi => ?_
    obtain rfl := Option.some.inj (hcurr.symm.trans hd)
    exact hready hv hi
  rw [State.beginCall]
  by_cases hv : 0 < s.sem.value
  · have hacq := Semaphore.State.acquire_permit (c := c) hv
    have hpermits := h.sem.permits
    have hzero : s.sem.held = 0 := by omega
    have ht : s.Touches (s.sem.acquire c) c := by
      rw [hacq]
      exact ⟨hacq ▸ hinv, rfl, fun _ _ => rfl, fun _ _ _ hr => hr⟩
    have hgain := h.gain ht hzero (by rw [hacq, hzero]) (by rw [hacq]; exact hcurr)
    rw [moved_idle hp] at hgain
    rw [if_pos hv]
    exact hgain.enter _ hop
  · rw [if_neg hv]
    cases hi : (s.coro c).interrupted with
    | true =>
      obtain ⟨hsched, hheld, hsize⟩ := Semaphore.State.acquire_raises hv hi
      have ht : s.Touches (s.sem.acquire c) c :=
        ⟨hinv, hsize, fun d _ => by rw [hsched], fun d _ _ hr => by rw [hsched]; exact hr⟩
      have hidle : (s.moved (s.sem.acquire c) c .idle s.copying).phase c = .idle := moved_self
      refine ⟨_, if_pos rfl, ?_⟩
      rw [← moved_idle hp]
      refine h.aside ht hheld (holds_idle hp) (holds_idle hidle) ?_
      rw [Local, hidle]
      exact hinv.not_in_call (by rw [hsched]; exact hcurr)
    | false =>
      obtain ⟨hsched, hheld, hsize⟩ := Semaphore.State.acquire_waits hv hi
      have ht : s.Touches (s.sem.acquire c) c := by
        refine ⟨hinv, hsize, fun d hd => ?_, fun d hd _ hr => ?_⟩
        · rw [hsched]
          exact Function.update_of_ne hd ..
        · exact absurd (Option.some.inj (hr.symm.trans hcurr)) hd
      have hphase : (s.moved (s.sem.acquire c) c (.acquiring op) s.copying).phase c =
          .acquiring op := moved_self
      refine ⟨_, if_neg nofun, h.aside ht hheld (holds_idle hp) (fun w total hd => ?_) ?_⟩
      · rcases hd with hd | ⟨_, _, hd⟩ | ⟨_, hd⟩ <;> cases hphase.symm.trans hd
      · have hself : (s.sem.acquire c).sched.coros c =
            { s.coro c with state := .suspend (.acquire s.sem.calls) } := by
          rw [hsched]
          exact Function.update_self ..
        rw [Local, hphase]
        refine ⟨⟨s.sem.calls, congrArg Coroutine.state hself⟩, fun heq => ?_, hop⟩
        exact (congrArg Coroutine.shielded hself).trans (hfinal heq)

theorem call (h : s.Inv none) (hcurr : s.sem.sched.currCoro = some c) (hp : s.phase c = .idle)
    (op : Op) (hready : s.sem.value = 0 → (op = .final ∨ (s.coro c).interrupted = false) →
      (s.coro c).ready = false) : ∃ s', s.call c op = .ok s' ∧ s'.Inv none := by
  have hpos := h.window
  cases op with
  | write n =>
    rw [State.call]
    split
    · exact ⟨s, rfl, h⟩
    · refine h.beginCall hcurr hp ?_ nofun fun hv hi => hready hv (Or.inr hi)
      rintro k hk
      cases hk
      split <;> omega
  | close => exact h.beginCall hcurr hp nofun nofun fun hv hi => hready hv (Or.inr hi)
  | final =>
    have hself : (s.sem.sched.shield c true).coros c = { s.coro c with shielded := true } :=
      Function.update_self ..
    refine (h.shield hcurr hp true).beginCall hcurr hp nofun
      (fun _ => congrArg Coroutine.shielded hself) fun hv _ => ?_
    exact (congrArg Coroutine.ready hself).trans (hready hv (Or.inl rfl))

/-! ## Turns of the scheduler -/

/-- Entering does not look at the phase. -/
theorem enter_moved {op : Op} : (s.moved sem c p s.copying).enter c op =
    State.enter { s with sem := sem } c op := by
  have hset : s.moved sem c p s.copying = State.setPhase { s with sem := sem } c p := rfl
  cases op with
  | write n =>
    show (if (s.writerClosed || decide (n = 0)) = true then _ else _) =
      if (s.writerClosed || decide (n = 0)) = true then _ else _
    by_cases hw : (s.writerClosed || decide (n = 0)) = true
    · rw [if_pos hw, if_pos hw]
      exact leave_setPhase (s := { s with sem := sem, writes := s.writes ++ [⟨n, none, n⟩] })
    · rw [if_neg hw, if_neg hw, State.stage, State.stage, setPhase, setPhase]
      dsimp only [moved, setWindow]
      rw [Function.update_idem]
      rfl
  | close =>
    rw [hset]
    exact closeLeave_setPhase
  | final =>
    rw [hset, State.enter, State.enter, closeWriter_setPhase]
    cases State.closeWriter { s with sem := sem } with
    | error msg => rfl
    | ok s₁ =>
      show (do
        let s ← (s₁.setPhase c p).leave c
        _) = _
      rw [leave_setPhase]
      rfl

theorem resume (h : s.Inv none) (hnone : s.sem.sched.currCoro = none) (lane : Lane) :
    ∃ s', s.resume lane = .ok s' ∧ s'.Inv none := by
  cases hq : s.sem.sched.runLater lane with
  | nil => exact ⟨s, by rw [State.resume, hq], h⟩
  | cons c rest =>
    have hinv : (s.sem.resume lane).Inv 1 := h.sem.resume hnone lane
    have hready : (s.coro c).ready = true :=
      ((h.sem.sched.mem_iff lane c).mp (by rw [hq]; exact List.mem_cons_self ..)).1
    have hother : ∀ d, d ≠ c → (s.sem.sched.reschedule lane).coros d = s.coro d :=
      fun d hd => s.sem.sched.reschedule_other hq hd
    have hfirst := s.sem.sched.reschedule_first hq
    have hrun : ∀ d, s.sem.sched.currCoro ≠ some d := fun d hd => by cases hnone.symm.trans hd
    have hlocal := h.each c
    rw [Local] at hlocal
    cases hp : s.phase c with
    | idle =>
      rw [hp] at hlocal
      have hok : s.resume lane = .ok { s with sem := s.sem.resume lane } := by
        rw [State.resume, hq]
        dsimp only
        split
        · rename_i hp'
          cases hp.symm.trans hp'
        · rename_i hp'
          cases hp.symm.trans hp'
        · rename_i hp'
          cases hp.symm.trans hp'
        · rfl
      refine ⟨_, hok, ?_⟩
      rw [← moved_idle hp]
      have hidle : (s.moved (s.sem.resume lane) c .idle s.copying).phase c = .idle := moved_self
      by_cases hstart : s.sem.state c = .suspend .start
      · have heq := Semaphore.State.resume_start hq hstart
        have ht : s.Touches (s.sem.resume lane) c := by
          refine ⟨hinv, by rw [heq], fun d hd => ?_, fun d _ _ hr => absurd hr (hrun d)⟩
          rw [heq]
          exact (Function.update_of_ne hd ..).trans (hother d hd)
        refine h.aside ht (by rw [heq]) (holds_idle hp) (holds_idle hidle) ?_
        rw [Local, hidle]
        refine hinv.not_in_call ?_
        rw [heq]
        exact Scheduler.reschedule_currCoro hq hstart
      · have heq := Semaphore.State.resume_other hq hlocal hstart
        have ht : s.Touches (s.sem.resume lane) c := by
          refine ⟨hinv, by rw [heq], fun d hd => ?_, fun d _ _ hr => absurd hr (hrun d)⟩
          rw [heq]
          exact hother d hd
        refine h.aside ht (by rw [heq]) (holds_idle hp) (holds_idle hidle) ?_
        rw [Local, hidle]
        intro w hw
        have hst : s.sem.state c ≠ .suspend (.acquire w) := hlocal w
        rw [heq] at hw
        have hw' : ((s.sem.sched.reschedule lane).coros c).state = .suspend (.acquire w) := hw
        rw [hfirst] at hw'
        dsimp only at hw'
        split at hw'
        · cases hw'
        · exact hst hw'
    | acquiring op =>
      rw [hp] at hlocal
      obtain ⟨⟨w, hw⟩, hfinal, hop⟩ := hlocal
      obtain ⟨hsize, hsched, hheld⟩ := Semaphore.State.resume_acquire hq hw
      have ht : s.Touches (s.sem.resume lane) c := by
        refine ⟨hinv, hsize, fun d hd => ?_, fun d _ _ hr => absurd hr (hrun d)⟩
        rw [hsched]
        exact hother d hd
      have hint : ((s.sem.sched.reschedule lane).coros c).interrupted = (s.coro c).interrupted := by
        rw [hfirst]
        rfl
      have hcurr : (s.sem.resume lane).sched.currCoro = some c := by
        rw [hsched]
        exact Scheduler.reschedule_currCoro hq hw
      have hok : s.resume lane =
          if (((s.sem.resume lane).sched.coros c).interrupted && !s.sem.acquired w) = true then
            .ok { State.setPhase { s with sem := s.sem.resume lane } c .idle with
              ended := s.ended || decide (op = .final) }
          else State.enter { s with sem := s.sem.resume lane } c op := by
        rw [State.resume, hq]
        dsimp only
        rw [hw, hp]
      rw [hok, hsched]
      split
      · rename_i hr
        have hne : op ≠ .final := by
          rintro rfl
          rw [hint, Coroutine.interrupted, hfinal rfl] at hr
          simp at hr
        have hidle : (s.moved (s.sem.resume lane) c .idle s.copying).phase c = .idle :=
          moved_self
        have haside := h.aside ht (by rw [hheld, if_pos hr]; rfl) (c := c) (p := .idle)
          (fun v t hd => by
            rcases hd with hd | ⟨_, _, hd⟩ | ⟨_, hd⟩ <;> cases hp.symm.trans hd)
          (holds_idle hidle) (by rw [Local, hidle]; exact hinv.not_in_call hcurr)
        refine ⟨_, rfl, ?_⟩
        have hended : (s.ended || decide (op = .final)) = s.ended := by simp [hne]
        rw [hended]
        exact haside
      · rename_i hr
        have hgranted : w ∈ s.sem.granted := by
          refine (h.sem.granted.2 w).mpr ⟨?_, c, hw⟩
          rcases h.sem.woken c w hw hready with hacq | hi
          · exact hacq
          · rw [hint, hi, Bool.true_and, Bool.not_eq_true', Bool.not_eq_false] at hr
            exact hr
        have hpos : 0 < s.sem.granted.length := List.length_pos_of_mem hgranted
        have hpermits := h.sem.permits
        have hzero : s.sem.held = 0 := by omega
        have hgain := h.gain ht hzero (by rw [hheld, if_neg hr, hzero]) hcurr
        obtain ⟨s', hok', h'⟩ := hgain.enter op hop
        exact ⟨s', enter_moved.symm.trans hok', h'⟩
    | looping w total =>
      rw [hp] at hlocal
      exact absurd hlocal (hrun c)
    | cancelling w total entry =>
      rw [hp] at hlocal
      exact absurd hlocal.1 (hrun c)
    | waiting w total event entry =>
      rw [hp] at hlocal
      obtain ⟨hst, rfl, hev, hoff⟩ := hlocal
      have heq : s.sem.resume lane = { s.sem with sched := s.sem.sched.reschedule lane } := by
        refine Semaphore.State.resume_other hq ?_ ?_ <;> rw [hst] <;> simp
      have ht : s.Touches (s.sem.resume lane) c := by
        refine ⟨hinv, by rw [heq], fun d hd => ?_, fun d _ _ hr => absurd hr (hrun d)⟩
        rw [heq]
        exact hother d hd
      have hcurr : (s.sem.resume lane).sched.currCoro = some c := by
        rw [heq]
        exact Scheduler.reschedule_currCoro hq hst
      have hholds : s.Holds c w total := Or.inr (Or.inl ⟨event, true, hp⟩)
      have hheld : (s.sem.resume lane).held = s.sem.held := by rw [heq]
      cases event with
      | some result =>
        have hphase : (s.moved (s.sem.resume lane) c (.looping w total) s.copying).phase c =
            .looping w total := moved_self
        have hmoved := h.rephase ht hheld hholds (Or.inl hphase)
          (by rw [Local, hphase]; exact hcurr) (fun hf => ?_)
        · obtain ⟨s', hok', h'⟩ := hmoved.written hphase (hoff result rfl)
          refine ⟨s', ?_, h'⟩
          rw [State.resume, hq]
          dsimp only
          rw [hst, hp]
          exact hok'
        · obtain ⟨d, v, t, entry, hd⟩ := h.flight hf
          obtain ⟨v, t, hh⟩ := InFlight.holds ⟨v, t, entry, hd⟩
          obtain rfl := (h.held hholds).2 d v t hh
          rcases hd with hd | hd <;> cases hp.symm.trans hd
      | none =>
        obtain ⟨hcopy, hint⟩ := hev rfl
        have hraised : ((s.sem.resume lane).sched.coros c).interrupted = true := by
          rw [heq]
          dsimp only
          rw [hfirst]
          exact hint hready
        have hphase : (s.moved (s.sem.resume lane) c (.cancelling w total true)
            s.copying).phase c = .cancelling w total true := moved_self
        refine ⟨_, ?_, h.rephase ht hheld hholds (Or.inr (Or.inr ⟨true, hphase⟩))
          (by rw [Local, hphase]; exact ⟨hcurr, rfl, hcopy⟩)
          fun _ => ⟨w, total, true, Or.inr hphase⟩⟩
        rw [State.resume, hq]
        dsimp only
        rw [hst, hp]
        dsimp only
        rw [if_pos hraised]
        rfl

/-! ## Events of the host, and what happens elsewhere -/

/-- A coroutine that was spawned is woken. -/
theorem touches_wake (h : s.Inv m) (hlt : c < s.sem.sched.coroId)
    (hacq : ∀ w, s.sem.state c ≠ .suspend (.acquire w)) :
    s.Touches { s.sem with sched := s.sem.sched.wake c } c where
  inv := h.sem.withCoro (h.sem.sched.wake hlt) Scheduler.wake_coros hacq hacq
  size := rfl
  same d hd := by rw [Scheduler.wake_coros, Function.update_of_ne hd]
  curr _ _ _ hr := Scheduler.wake_currCoro.trans hr

theorem deliver (h : s.Inv none) {entry : Bool} (hp : s.phase c = .waiting w total none entry)
    {result : StreamResult} (hoff : s.Offered w total result) :
    ∃ s', s.deliver c result = .ok s' ∧ s'.Inv none := by
  have hlocal := h.each c
  rw [Local, hp] at hlocal
  obtain ⟨hst, rfl, -, -⟩ := hlocal
  have ht : s.Touches { s.sem with sched := s.sem.sched.wake c } c :=
    h.touches_wake (h.sem.sched.spawned (by rw [Semaphore.State.state] at hst; simp [hst]))
      (by simp [hst])
  have hphase : (s.moved { s.sem with sched := s.sem.sched.wake c } c
      (.waiting w total (some result) true) none).phase c = .waiting w total (some result) true :=
    moved_self
  refine ⟨_, by rw [State.deliver, hp]; rfl, h.rephase ht rfl (Or.inr (Or.inl ⟨none, true, hp⟩))
    (Or.inr (Or.inl ⟨_, _, hphase⟩)) ?_ (by simp)⟩
  rw [Local, hphase]
  refine ⟨Scheduler.wake_state.trans hst, rfl, by simp, fun r hr => ?_⟩
  cases hr
  exact hoff

/-- A coroutine outside the calls changes, and does not wait for the lock then. -/
theorem elsewhere (h : s.Inv none) (hp : s.phase c = .idle) (ht : s.Touches sem c)
    (hheld : sem.held = s.sem.held) (hst : ∀ w, sem.state c ≠ .suspend (.acquire w)) :
    Inv none { s with sem := sem } := by
  have hidle : (s.moved sem c .idle s.copying).phase c = .idle := moved_self
  rw [← moved_idle hp]
  refine h.aside ht hheld (holds_idle hp) (holds_idle hidle) ?_
  rw [Local, hidle]
  exact hst

theorem cancel (h : s.Inv none) (c : CoroId) :
    Inv none { s with sem := { s.sem with sched := s.sem.sched.cancel c } } := by
  refine { h with sem := h.sem.cancel c, lock := h.lock, each := fun d => ?_ }
  · have hcoro : (s.sem.sched.cancel c).coros d = s.coro d ∨
        (s.sem.sched.cancel c).coros d = { s.coro d with
          cancelled := true, ready := (s.coro d).ready || !(s.coro d).shielded } := by
      rw [Scheduler.cancel_coros]
      by_cases hd : d = c
      · subst hd
        rw [Function.update_self]
        split
        · exact Or.inl rfl
        · exact Or.inl rfl
        · exact Or.inr rfl
      · rw [Function.update_of_ne hd]
        exact Or.inl rfl
    rcases hcoro with heq | heq
    · exact (h.each d).frame rfl (congrArg Coroutine.state heq)
        (fun _ => congrArg Coroutine.shielded heq)
        (fun hr => Or.inl ((congrArg Coroutine.ready heq).symm.trans hr))
        (fun hi => (congrArg Coroutine.interrupted heq).trans hi)
        (fun hr _ => Scheduler.cancel_currCoro.trans hr) rfl (fun _ => id) fun _ _ _ _ => id
    · have hst : ((s.sem.sched.cancel c).coros d).state = (s.coro d).state :=
        by rw [heq]
      have hsh : ((s.sem.sched.cancel c).coros d).shielded = (s.coro d).shielded :=
        by rw [heq]
      refine (h.each d).frame rfl hst (fun _ => hsh) (fun hr => ?_) (fun hi => ?_)
        (fun hr _ => Scheduler.cancel_currCoro.trans hr) rfl (fun _ => id) fun _ _ _ _ => id
      · have hr' : ((s.coro d).ready || !(s.coro d).shielded) = true :=
          (congrArg Coroutine.ready heq).symm.trans hr
        rcases Bool.or_eq_true_iff.mp hr' with hr' | hr'
        · exact Or.inl hr'
        · refine Or.inr ((congrArg Coroutine.interrupted heq).trans ?_)
          rw [Coroutine.interrupted]
          exact hr'
      · refine (congrArg Coroutine.interrupted heq).trans ?_
        rw [Coroutine.interrupted] at hi ⊢
        exact (Bool.and_eq_true_iff.mp hi).2

/-- A coroutine that was not spawned is in no call. -/
theorem fresh_idle (h : s.Inv none) (hle : s.sem.sched.coroId ≤ c) : s.phase c = .idle := by
  have hdone : s.sem.state c = .done := (h.sem.sched.fresh c hle).1
  have hrun : s.sem.sched.currCoro ≠ some c := fun hcurr => by
    have hr := (h.sem.sched.running c).mpr hcurr
    cases hdone.symm.trans hr
  have hlocal := h.each c
  rw [Local] at hlocal
  cases hp : s.phase c with
  | idle => rfl
  | acquiring op =>
    rw [hp] at hlocal
    obtain ⟨⟨w, hw⟩, -⟩ := hlocal
    cases hdone.symm.trans hw
  | looping w total =>
    rw [hp] at hlocal
    exact absurd hlocal hrun
  | waiting w total event entry =>
    rw [hp] at hlocal
    cases hdone.symm.trans hlocal.1
  | cancelling w total entry =>
    rw [hp] at hlocal
    exact absurd hlocal.1 hrun

/-- The running coroutine outside the calls does something to itself. -/
theorem running (h : s.Inv none) (hcurr : s.sem.sched.currCoro = some c) (hp : s.phase c = .idle)
    {sched : Scheduler Semaphore.Waits} {x : Coroutine Semaphore.Waits} (hinv : sched.Inv)
    (hx : sched.coros = Function.update s.sem.sched.coros c x)
    (hst : ∀ w, x.state ≠ .suspend (.acquire w)) :
    Inv none { s with sem := { s.sem with sched := sched } } := by
  refine h.elsewhere (c := c) hp
    ⟨h.sem.withCoro hinv hx (h.sem.not_in_call hcurr) hst, rfl, fun d hd => ?_, fun d hd _ hr => ?_⟩
    rfl fun w => ?_
  · dsimp only
    rw [hx, Function.update_of_ne hd]
  · exact absurd (Option.some.inj (hr.symm.trans hcurr)) hd
  · rw [Semaphore.State.state, hx, Function.update_self]
    exact hst w

theorem sched (h : s.Inv none) {e : Semaphore.Event} (ha : s.sem.allowed e) (he : s.Elsewhere e)
    (hs : s.Sound (.sched e)) : ∃ s', s.exec (.sched e) = .ok s' ∧ s'.Inv none := by
  cases e with
  | spawn lane =>
    refine ⟨_, rfl, h.elsewhere (c := s.sem.sched.coroId) (h.fresh_idle (Nat.le_refl _))
      ⟨?_, rfl, fun d hd => ?_, fun d _ _ hr => hr⟩ rfl fun w hw => ?_⟩
    · refine h.sem.withCoro (h.sem.sched.spawnOwned lane .start) rfl ?_ (by simp)
      rw [Semaphore.State.state, (h.sem.sched.fresh _ (Nat.le_refl _)).1]
      simp
    · exact Function.update_of_ne hd ..
    · have hself : (s.sem.sched.spawnOwned lane .start).coros s.sem.sched.coroId =
          ⟨lane, .suspend .start, true, false, true⟩ := Function.update_self ..
      cases (congrArg Coroutine.state hself).symm.trans hw
  | cancel c => exact ⟨_, rfl, h.cancel c⟩
  | shield b =>
    obtain ⟨c, hcurr⟩ := Option.isSome_iff_exists.mp ha
    refine ⟨_, rfl, ?_⟩
    rw [Semaphore.State.running, hcurr]
    exact h.shield hcurr (he c hcurr) b
  | park =>
    obtain ⟨c, hcurr⟩ := Option.isSome_iff_exists.mp ha
    refine ⟨_, rfl, ?_⟩
    rw [Semaphore.State.running, hcurr]
    dsimp only
    split
    · exact h
    · exact h.running hcurr (he c hcurr) (h.sem.sched.leave hcurr (by simp)) rfl (by simp)
  | unpark c =>
    -- who is woken from elsewhere is in no call of the sink
    have hp : s.phase c = .idle := hs
    have hlocal := h.each c
    rw [Local, hp] at hlocal
    refine ⟨_, rfl, h.elsewhere hp (h.touches_wake ha hlocal) rfl fun w hw => ?_⟩
    exact hlocal w (Scheduler.wake_state.symm.trans hw)
  | finish failed =>
    obtain ⟨c, hcurr⟩ := Option.isSome_iff_exists.mp ha
    refine ⟨_, rfl, ?_⟩
    rw [Semaphore.State.running, hcurr]
    cases failed
    · exact h.running hcurr (he c hcurr) (h.sem.sched.leave hcurr (by simp)) rfl (by simp)
    · exact h.running hcurr (he c hcurr) (h.sem.sched.leave hcurr (by simp)) rfl (by simp)
  | _ => exact he.elim

/-! ## Every run -/

theorem exec (h : s.Inv none) {e : Event} (ha : s.Allowed e) (hs : s.Sound e) :
    ∃ s', s.exec e = .ok s' ∧ s'.Inv none := by
  obtain ⟨-, ha⟩ := ha
  cases e with
  | sched e => exact h.sched ha.1 ha.2 hs
  | resume lane => exact h.resume ha lane
  | begin op =>
    obtain ⟨hease, c, hcurr, -⟩ := ha
    obtain ⟨s', hok, h'⟩ := h.call hcurr (hease c hcurr) op (hs c hcurr)
    exact ⟨s', by rw [State.exec, hcurr]; exact hok, h'⟩
  | offer reply =>
    obtain ⟨c, w, total, hcurr, hp, hoff⟩ := ha
    obtain ⟨s', hok, h'⟩ := h.offer hcurr hp hoff (by rintro rfl; exact hs c hcurr)
    exact ⟨s', by rw [State.exec, hcurr]; dsimp only; rw [hp]; exact hok, h'⟩
  | cancelWrite result =>
    obtain ⟨c, w, total, entry, hcurr, hp, hoff⟩ := ha
    obtain ⟨s', hok, h'⟩ := h.cancelWrite hp hoff
    exact ⟨s', by rw [State.exec, hcurr]; dsimp only; rw [hp]; exact hok, h'⟩
  | deliver c result =>
    obtain ⟨-, -, w, total, entry, hp, hoff⟩ := ha
    exact h.deliver hp hoff
  | entryRemoved c => exact hs.elim

theorem new (h : s.New) : s.Inv none := by
  obtain ⟨hsem, hphase, hwin, hclosed, hcopy, hdrop, hstaged, hwrites, hended, hcalm⟩ := h
  have hidle : ∀ c, s.phase c = .idle := fun c => by rw [hphase]
  have hinv := Semaphore.State.Inv.new hsem
  obtain ⟨-, -, waiter, hsem⟩ := hsem
  have hno : ∀ d w total, ¬ s.Holds d w total := fun d => holds_idle (hidle d)
  refine ⟨hcalm, hinv, by rw [hsem], hwin, fun c => ?_, Or.inl ⟨by rw [hsem], hno⟩, fun hf => ?_,
    fun d w total hd => absurd hd (hno d w total), fun d w total hd => absurd hd (hno d w total),
    fun w hw => ?_, fun x hx => ?_, ?_, fun he => ?_⟩
  · rw [Local, hidle, hsem]
    nofun
  · rw [hcopy] at hf
    cases hf
  · rw [hstaged] at hw
    cases hw
  · rw [hwrites] at hx
    cases hx
  · rw [hdrop, hclosed]
    rfl
  · rw [hended] at he
    cases he

theorem of_reachable (h : soundBridge.Reachable s) : s.Inv none := by
  refine h.invariant (fun _ hs => .new hs) fun s e s' hi ha he => ?_
  obtain ⟨s₁, hok, h₁⟩ := hi.exec ha.1 ha.2
  have heq : s.execute e = s' := Except.ok.inj he
  rw [State.execute, hok] at heq
  exact heq ▸ h₁

theorem toSettled (h : s.Inv none) : s.Settled where
  calm := h.calm
  windows w hw := by
    by_cases hex : ∃ c total, s.Holds c w total
    · obtain ⟨c, total, hc⟩ := hex
      exact Or.inl ⟨⟨c, total, hc⟩, (h.holds c w total hc).2.1⟩
    · exact Or.inr ⟨hex, h.settled w hw hex⟩
  writes := h.writes
  dropped := by
    rw [h.drops]
    split <;> omega
  ended he := by rw [h.drops, h.ended he, if_pos rfl]

end Inv

end State

/-- While no call of the bridge starts to wait with an entry of its coroutine in
the run queue or is woken from elsewhere, and nobody takes its subscriber's entry
away, windows are settled once and the writable end is dropped once. -/
theorem windows_settled_once (s : State) (h : soundBridge.Reachable s) : s.Settled :=
  (State.Inv.of_reachable h).toSettled

/-- No coroutine was spawned, and windows take four values. -/
def State.fresh : State where
  sem := ⟨.empty, 1, 1, [], fun _ => ⟨false, none⟩, 0, 0, [], [], []⟩
  phase _ := .idle
  bridge := 0
  stagingWindow := 4
  writerClosed := false
  copying := none
  droppedWritable := 0
  windows _ := .new 0
  staged := 0
  writes := []
  ended := false
  panicked := none

theorem State.new_fresh : State.fresh.New :=
  ⟨⟨by decide, by decide, _, rfl⟩, rfl, by decide, rfl, rfl, rfl, rfl, rfl, rfl, rfl⟩

/-- The host takes one value of three and then holds the write back; the writer is
cancelled, and the cancelled write has taken one more. -/
theorem windows_settled_once_cancelled : ∃ s : State,
    (s.windows 0).committed = [0, 1] ∧ (s.windows 0).rejected = [2] ∧ s.droppedWritable = 1 ∧
      s.Settled := by
  have h₀ : soundBridge.Reachable State.fresh := .init _ State.new_fresh
  have h₁ := h₀.step _ _ (Event.sched (.spawn 0)) ⟨⟨rfl, trivial, trivial⟩, trivial⟩ rfl
  have h₂ := h₁.step _ _ (Event.resume 0) ⟨⟨rfl, rfl⟩, trivial⟩ rfl
  have h₃ := h₂.step _ _ (Event.begin (.write 3))
    ⟨⟨rfl, fun _ hc => by cases hc; rfl, 0, rfl, nofun⟩, fun _ _ h => nomatch h⟩ rfl
  have h₄ := h₃.step _ _ (Event.offer (some ⟨1, .completed⟩))
    ⟨⟨rfl, 0, 0, 0, rfl, rfl, fun _ hr => by cases hr; exact Nat.le_of_ble_eq_true rfl⟩, trivial⟩ rfl
  have h₅ := h₄.step _ _ (Event.offer none)
    ⟨⟨rfl, 0, 0, 1, rfl, rfl, nofun⟩, fun _ hc _ => by cases hc; rfl⟩ rfl
  have h₆ := h₅.step _ _ (Event.sched (.cancel 0)) ⟨⟨rfl, trivial, trivial⟩, trivial⟩ rfl
  have h₇ := h₆.step _ _ (Event.resume 0) ⟨⟨rfl, rfl⟩, trivial⟩ rfl
  have h₈ := h₇.step _ _ (Event.cancelWrite ⟨1, .cancelled⟩)
    ⟨⟨rfl, 0, 0, 1, true, rfl, rfl, Nat.le_of_ble_eq_true rfl⟩, trivial⟩ rfl
  exact ⟨_, rfl, rfl, rfl, windows_settled_once _ h₈⟩

/-- A coroutine cancels itself and then writes under a shield. The entry that the
cancellation left in the run queue resumes it before the host has answered. -/
theorem window_left_unsettled : ∃ s : State, bridge.Reachable s ∧
    s.panicked = some "called `unwrap` on a `None` value" ∧ (s.windows 0).settled = [] ∧ ¬ s.Settled := by
  have h₀ : bridge.Reachable State.fresh := .init _ State.new_fresh
  have h₁ := h₀.step _ _ (Event.sched (.spawn 0)) ⟨rfl, trivial, trivial⟩ rfl
  have h₂ := h₁.step _ _ (Event.resume 0) ⟨rfl, rfl⟩ rfl
  have h₃ := h₂.step _ _ (Event.sched (.cancel 0)) ⟨rfl, trivial, trivial⟩ rfl
  have h₄ := h₃.step _ _ (Event.sched (.shield true)) ⟨rfl, rfl, fun _ hc => by cases hc; rfl⟩ rfl
  have h₅ := h₄.step _ _ (Event.begin (.write 1))
    ⟨rfl, fun _ hc => by cases hc; rfl, 0, rfl, nofun⟩ rfl
  have h₆ := h₅.step _ _ (Event.offer none) ⟨rfl, 0, 0, 0, rfl, rfl, nofun⟩ rfl
  have h₇ := h₆.step _ _ (Event.resume 0) ⟨rfl, rfl⟩ rfl
  refine ⟨_, h₇, rfl, rfl, fun hs => ?_⟩
  cases hs.calm

end Outgoing

end Moonbit

end WitBindgen
