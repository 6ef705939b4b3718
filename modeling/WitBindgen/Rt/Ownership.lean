import WitBindgen.Rt.Driver
import WitBindgen.Rt.Subtask

/-!
# Who owns what during an asynchronous call

The log of a call is read off its last status: the parameters are lowered, their
lists are freed once the callee has taken them or with the owned handles when it
never will, the results are lifted, and then buffer and handle go. This holds for
whatever the host reports, however the future is polled and whenever it is dropped.
-/

namespace WitBindgen

namespace Rt

namespace Subtask

variable {T : Subtask} {state : T.InProgress} {log : T.Log} {code : Code}

/-! ## What the host reports -/

/-- The last status the host told of a call. -/
def told (state : T.InProgress) (pending : Option Code) : Code :=
  pending.getD (if state.started then statusStarted else statusStarting)

/-- The statuses that may follow one another. -/
def Follows (last code : Code) : Prop :=
  (last = statusStarting ∧ (code = statusStarted ∨ code = statusReturned)) ∨
    (last = statusStarted ∧ code = statusReturned)

/-- A cancellation is answered when the call is resolved; a call that has not
resolved was told to be starting or started. -/
def Resolves (last code : Code) : Prop :=
  (last = statusStarting → code = statusReturned ∨ code = statusStartedCancelled ∨
      code = statusReturnedCancelled) ∧
    (last = statusStarted → code = statusReturned ∨ code = statusReturnedCancelled)

/-- An import returns at once, or returns the handle of a subtask. -/
def Calls (packed : Code) : Prop :=
  packed &&& 0xf = statusReturned ∨
    ((packed &&& 0xf = statusStarting ∨ packed &&& 0xf = statusStarted) ∧ packed >>> 4 ≠ 0)

/-! ## The log -/

/-- The handle in what an import returns. -/
def handleOf (packed : Code) : Option Waitable :=
  if packed >>> 4 = 0 then none else some (packed >>> 4)

variable (T) in
/-- The log of a call that was just made. -/
def opened (p : T.ParamsLower) (packed : Code) : T.Log :=
  (if T.abiLayout = 0 then [] else [Step.allocBuffer]) ++ [Step.lowerParams p, .callImport p packed]

/-- What the last status makes of parameters and results. -/
def settled (p : T.ParamsLower) (code : Code) : T.Log :=
  if code = statusStartedCancelled then [.deallocListsAndOwn p]
  else if code = statusReturned then [Step.deallocLists p, .liftResults]
  else [Step.deallocLists p]

variable (T) in
/-- The buffer and the handle go. -/
def closed (packed : Code) : T.Log :=
  (if T.abiLayout = 0 then [] else [Step.freeBuffer]) ++
    (handleOf packed).toList.map .dropHandle

/-- The state of a call in progress, and its log. -/
structure Tracks (log : T.Log) (state : T.InProgress) (packed : Code) : Prop where
  buffer : state.paramsAndResults = decide (T.abiLayout ≠ 0)
  handle : state.subtask = handleOf packed
  log : log = T.opened state.paramsLower packed ++
    if state.started then [Step.deallocLists state.paramsLower] else []

/-- How a call ends. -/
def Ended (log : T.Log) : Option Code → Prop
  | none => log = [Step.dropParams]
  | some code => (code = statusReturned ∨ code = statusStartedCancelled ∨
      code = statusReturnedCancelled) ∧
      ∃ p packed, log = T.opened p packed ++ settled p code ++ T.closed packed

/-- A code that may be looked at. -/
def Told (log : T.Log) (state : T.InProgress) (code : Code) : Prop :=
  (∃ packed, Tracks log state packed) ∧
    (((code = statusStarting ∨ code = statusStarted) ∧ state.started = false ∧
        state.subtask.isSome) ∨
      code = statusReturned ∨ (code = statusStartedCancelled ∧ state.started = false) ∨
      code = statusReturnedCancelled)

/-! ## The calls -/

variable {packed : Code}

variable (log) in
theorem drop_run (hbuffer : state.paramsAndResults = decide (T.abiLayout ≠ 0))
    (hhandle : state.subtask = handleOf packed) :
    state.drop log = .ok ((), log ++ T.closed packed) := by
  rw [InProgress.drop, hbuffer, hhandle, closed]
  by_cases hsize : T.abiLayout = 0
  · rw [if_pos hsize, hsize]
    cases handleOf packed with
    | none => simp [pure, StateT.pure.eq_def, Except.pure]
    | some handle => rfl
  · have hdec : decide (T.abiLayout ≠ 0) = true := by simpa using hsize
    rw [if_neg hsize, hdec]
    cases handleOf packed with
    | none => rfl
    | some handle =>
      rw [if_pos rfl, emit_bind]
      simp [emit]

theorem ensureStarted_run (h : Tracks log state packed) : ∃ state',
    state.ensureStarted log = .ok (state', T.opened state.paramsLower packed ++
        [Step.deallocLists state.paramsLower]) ∧
      state'.paramsAndResults = state.paramsAndResults ∧ state'.subtask = state.subtask := by
  rw [InProgress.ensureStarted, h.log]
  cases hstarted : state.started with
  | true => exact ⟨state, rfl, rfl, rfl⟩
  | false =>
    refine ⟨{ state with started := true }, ?_, rfl, rfl⟩
    rw [InProgress.flagStarted, hstarted]
    simp [emit, bind, StateT.bind, Except.bind, pure, StateT.pure.eq_def, Except.pure]

theorem start_ends (params : T.Params) (packed : Code) (h : Calls packed) :
    Ends (fun _ => False) (fun r => Told r.2 r.1.2 r.1.1) (T.start params packed []) := by
  have hrun : T.start params packed [] = .ok ((packed &&& 0xf,
      { paramsAndResults := decide (T.abiLayout ≠ 0)
        paramsLower := T.paramsLower params
        started := false
        subtask := handleOf packed }), T.opened (T.paramsLower params) packed) := by
    rw [start, opened]
    by_cases hsize : T.abiLayout = 0
    · simp [hsize, emit, handleOf, bind, StateT.bind, Except.bind, pure, StateT.pure.eq_def, Except.pure]
    · simp [hsize, emit, handleOf, bind, StateT.bind, Except.bind, pure, StateT.pure.eq_def, Except.pure]
  rw [hrun]
  refine ⟨⟨packed, rfl, rfl, by simp⟩, ?_⟩
  rcases h with hreturned | ⟨hstatus, hhandle⟩
  · exact Or.inr (Or.inl hreturned)
  · exact Or.inl ⟨hstatus, rfl, by simp [handleOf, hhandle]⟩

theorem update_ends (h : Told log state code) :
    Ends (fun _ => False) (fun r =>
      match r.1 with
      | .ok _ => Ended r.2 (some code)
      | .error state' => ((∃ packed, Tracks r.2 state' packed) ∧ state'.subtask.isSome) ∧
          (code = statusStarting ∧ state'.started = false ∨
            code = statusStarted ∧ state'.started = true))
      (T.inProgressUpdate state code log) := by
  obtain ⟨⟨packed, htracks⟩, hcode⟩ := h
  rw [inProgressUpdate]
  rcases hcode with ⟨rfl | rfl, hstarted, hsome⟩ | rfl | ⟨rfl, hstarted⟩ | rfl
  · rw [if_pos rfl, hstarted]
    exact ⟨⟨⟨packed, htracks⟩, hsome⟩, Or.inl ⟨rfl, hstarted⟩⟩
  · rw [if_neg (by decide), if_pos rfl, flagStarted_bind hstarted]
    refine ⟨⟨⟨packed, htracks.buffer, htracks.handle, ?_⟩, hsome⟩, Or.inr ⟨rfl, rfl⟩⟩
    rw [htracks.log, hstarted]
    simp
  · rw [if_neg (by decide), if_neg (by decide), if_pos rfl]
    obtain ⟨state', hrun, hbuffer, hhandle⟩ := ensureStarted_run htracks
    have hdrop := fun log => drop_run log (hbuffer.trans htracks.buffer)
      (hhandle.trans htracks.handle)
    simp only [bind, StateT.bind, hrun, Except.bind, emit, hdrop, pure, StateT.pure.eq_def, Except.pure]
    exact ⟨Or.inl rfl, state.paramsLower, packed, by simp [settled, statusReturned,
      statusStartedCancelled]⟩
  · rw [if_neg (by decide), if_neg (by decide), if_neg (by decide), if_pos rfl, hstarted]
    have hdrop := fun log => drop_run log htracks.buffer htracks.handle
    simp only [bind, StateT.bind, Except.bind, emit, hdrop, pure, StateT.pure.eq_def, Except.pure,
      Bool.false_eq_true, if_false]
    refine ⟨Or.inr (Or.inl rfl), state.paramsLower, packed, ?_⟩
    rw [htracks.log, hstarted]
    simp [settled]
  · rw [if_neg (by decide), if_neg (by decide), if_neg (by decide), if_neg (by decide), if_pos rfl]
    obtain ⟨state', hrun, hbuffer, hhandle⟩ := ensureStarted_run htracks
    have hdrop := fun log => drop_run log (hbuffer.trans htracks.buffer)
      (hhandle.trans htracks.handle)
    simp only [bind, StateT.bind, hrun, Except.bind, hdrop, pure, StateT.pure.eq_def, Except.pure]
    exact ⟨Or.inr (Or.inr rfl), state.paramsLower, packed, by simp [settled, statusReturned,
      statusReturnedCancelled, statusStartedCancelled]⟩

/-- In progress, with every status looked at. -/
def Waits (log : T.Log) (state : T.InProgress) : Prop :=
  (∃ packed, Tracks log state packed) ∧ state.subtask.isSome

theorem told_none (state : T.InProgress) :
    (state.started = false ∧ told state none = statusStarting) ∨
      (state.started = true ∧ told state none = statusStarted) := by
  cases hstarted : state.started with
  | false => exact Or.inl ⟨rfl, by simp [told, hstarted]⟩
  | true => exact Or.inr ⟨rfl, by simp [told, hstarted]⟩

theorem Waits.report {pending : Option Code} (hw : Waits log state)
    (htold : ∀ p ∈ pending, Told log state p) (h : Follows (told state pending) code) :
    Told log state code := by
  refine ⟨hw.1, ?_⟩
  have hfresh : told state pending = statusStarting → state.started = false := by
    intro hstarting
    cases pending with
    | none =>
      rcases told_none state with ⟨hs, -⟩ | ⟨-, ht⟩
      · exact hs
      · rw [ht] at hstarting; cases hstarting
    | some p =>
      obtain rfl : p = statusStarting := hstarting
      rcases (htold _ rfl).2 with ⟨-, hs, -⟩ | hs | ⟨-, hs⟩ | hs
      · exact hs
      · cases hs
      · exact hs
      · cases hs
  rcases h with ⟨hlast, rfl | rfl⟩ | ⟨-, rfl⟩
  · exact Or.inl ⟨Or.inr rfl, hfresh hlast, hw.2⟩
  · exact Or.inr (Or.inl rfl)
  · exact Or.inr (Or.inl rfl)

theorem Waits.answer (hw : Waits log state) (h : Resolves (told state none) code) :
    Told log state code := by
  refine ⟨hw.1, ?_⟩
  rcases told_none state with ⟨hstarted, htold⟩ | ⟨hstarted, htold⟩
  · rcases h.1 htold with h | h | h
    · exact Or.inr (Or.inl h)
    · exact Or.inr (Or.inr (Or.inl ⟨h, hstarted⟩))
    · exact Or.inr (Or.inr (Or.inr h))
  · rcases h.2 htold with h | h
    · exact Or.inr (Or.inl h)
    · exact Or.inr (Or.inr (Or.inr h))

theorem Waits.waitable (hw : Waits log state) :
    Ends (fun _ => False) (fun r => r.2 = log) (T.inProgressWaitable state log) := by
  obtain ⟨handle, hhandle⟩ := Option.isSome_iff_exists.mp hw.2
  rw [inProgressWaitable, hhandle]
  exact rfl

theorem Waits.cancel {a : Code} (hw : Waits log state) (h : Resolves (told state none) a) :
    Ends (fun _ => False) (fun r => Told r.2 r.1.2 r.1.1) (T.inProgressCancel state a log) := by
  obtain ⟨handle, hhandle⟩ := Option.isSome_iff_exists.mp hw.2
  rw [inProgressCancel, inProgressWaitable, hhandle]
  exact hw.answer h

variable (T) in
/-- The calls of `SubtaskOps`, against what the host reports. -/
def logic : T.ops.Logic where
  MayPanic _ := False
  Fresh log _ := log = []
  Starts _ _ packed := Calls packed
  Live := Waits (T := T)
  Tells := Told (T := T)
  Reports _ state pending code := Follows (told (T := T) state pending) code
  Answers _ state pending code := Resolves (told (T := T) state pending) code
  Over := Ended (T := T)
  start params packed log hfresh h := by
    subst hfresh
    exact start_ends params packed h
  report log state pending code hlive htells h := Waits.report hlive htells h
  update state code log h := by
    refine (update_ends h).mono fun r hr => ?_
    obtain ⟨r, log'⟩ := r
    cases r with
    | ok result => exact ⟨hr, hr⟩
    | error state' =>
      refine ⟨hr.1, fun a ha => ?_⟩
      have hlast : told (T := T) state' none = code := by
        rcases hr.2 with ⟨rfl, hs⟩ | ⟨rfl, hs⟩
        · simp [told, hs]
        · simp [told, hs]
      rw [hlast]
      exact ha
  startCancelled params log hfresh := by
    subst hfresh
    exact rfl
  waitable _ _ h := Waits.waitable h
  cancel _ _ _ hlive h := Waits.cancel hlive h

/-! ## Exactly once -/

namespace Step

variable {P : Type}

def freesLists : Step P → Bool
  | .deallocLists _ | .deallocListsAndOwn _ => true
  | _ => false

def dropsOwn : Step P → Bool
  | .deallocListsAndOwn _ => true
  | _ => false

def lifts : Step P → Bool
  | .liftResults => true
  | _ => false

def allocates : Step P → Bool
  | .allocBuffer => true
  | _ => false

def freesBuffer : Step P → Bool
  | .freeBuffer => true
  | _ => false

/-- Steps that need the buffer, the one that frees it among them. -/
def needsBuffer : Step P → Bool
  | .lowerParams _ | .callImport .. | .deallocLists _ | .deallocListsAndOwn _ | .liftResults
  | .freeBuffer => true
  | _ => false

def drops (h : Waitable) : Step P → Bool
  | .dropHandle h' => h' = h
  | _ => false

end Step

/-- What a call that was made has released, once it is over. -/
structure Released (log : T.Log) (p : T.ParamsLower) (packed : Code) : Prop where
  lists : log.countP Step.freesLists = 1
  lists_of : .deallocLists p ∈ log ∨ .deallocListsAndOwn p ∈ log
  buffer : log.countP Step.freesBuffer = log.countP Step.allocates
  handle : ∀ h, log.countP (Step.drops h) = if h = packed >>> 4 ∧ h ≠ 0 then 1 else 0

/-- What holds of the resources of a call at every moment. -/
structure Owned (log : T.Log) (completed : Option Code) (isOver : Bool) : Prop where
  lists : log.countP Step.freesLists ≤ 1
  own : log.countP Step.dropsOwn = if completed = some statusStartedCancelled then 1 else 0
  lifts : log.countP Step.lifts = if completed = some statusReturned then 1 else 0
  buffer : log.Pairwise fun s t => s.freesBuffer = true → t.needsBuffer = false
  handle : ∀ h, log.countP (Step.drops h) ≤ 1
  released : isOver = true → ∀ p packed, .callImport p packed ∈ log → Released log p packed
  never_called : isOver = true → (∀ p packed, .callImport p packed ∉ log) → log = [Step.dropParams]

section
variable (p : T.ParamsLower) (packed : Code)

/-- The counts of the three parts of a log. -/
theorem countP_opened (f : Step T.ParamsLower → Bool) :
    (T.opened p packed).countP f = (if T.abiLayout = 0 then 0 else [Step.allocBuffer].countP f) +
      [Step.lowerParams p, .callImport p packed].countP f := by
  rw [opened, List.countP_append]
  split <;> rfl

theorem countP_closed (f : Step T.ParamsLower → Bool) :
    (T.closed packed).countP f = (if T.abiLayout = 0 then 0 else [Step.freeBuffer].countP f) +
      ((handleOf packed).toList.map Step.dropHandle).countP f := by
  rw [closed, List.countP_append]
  split <;> rfl

theorem countP_handle (h : Waitable) :
    ((handleOf packed).toList.map Step.dropHandle).countP (Step.drops (P := T.ParamsLower) h) =
      if h = packed >>> 4 ∧ h ≠ 0 then 1 else 0 := by
  rw [handleOf]
  by_cases hzero : packed >>> 4 = 0
  · rw [if_pos hzero, if_neg fun hh => hh.2 (hh.1.trans hzero)]
    rfl
  · rw [if_neg hzero]
    by_cases hh : h = packed >>> 4
    · subst hh
      simp [Step.drops, hzero]
    · simp [Step.drops, hh, Ne.symm hh]

theorem countP_handles_eq_zero {f : Step T.ParamsLower → Bool}
    (hf : ∀ h, f (.dropHandle h) = false) :
    ((handleOf packed).toList.map Step.dropHandle).countP f = 0 := by
  rw [List.countP_map, List.countP_eq_zero]
  exact fun h _ => by simp [hf h]

/-- Only the handle goes after the buffer. -/
theorem pairwise_log {before : T.Log} (h : ∀ s ∈ before, s.freesBuffer = false) :
    (before ++ T.closed packed).Pairwise
      fun s t => s.freesBuffer = true → t.needsBuffer = false := by
  have hclosed : (T.closed packed).Pairwise
      fun s t => s.freesBuffer = true → t.needsBuffer = false := by
    rw [closed, handleOf]
    split <;> split <;> simp [Step.needsBuffer]
  refine List.pairwise_append.mpr ⟨?_, hclosed, fun s hs _ _ hfree => ?_⟩
  · refine List.pairwise_of_forall_mem_list fun s hs _ _ hfree => ?_
    rw [h s hs] at hfree
    cases hfree
  · rw [h s hs] at hfree
    cases hfree

theorem mem_opened_callImport {q : T.ParamsLower} {packed' : Code} {rest : T.Log}
    (hrest : ∀ q packed', .callImport q packed' ∉ rest)
    (h : .callImport q packed' ∈ T.opened p packed ++ rest) : q = p ∧ packed' = packed := by
  rcases List.mem_append.mp h with h | h
  · rw [opened] at h
    split at h <;> simpa using h
  · exact absurd h (hrest q packed')

theorem callImport_mem_opened : .callImport p packed ∈ T.opened p packed := by
  simp [opened]

end

/-- The log of an ended call, read off its last status. -/
theorem Owned.of_ended (p : T.ParamsLower) (packed : Code) (hcode : code = statusReturned ∨
      code = statusStartedCancelled ∨ code = statusReturnedCancelled) :
    Owned (T.opened p packed ++ settled p code ++ T.closed packed) (some code) true := by
  have hsettled : ∀ s ∈ settled p code, (s = .deallocLists p ∨ s = .deallocListsAndOwn p) ∨
      s = .liftResults := by
    rcases hcode with rfl | rfl | rfl <;> simp [settled, statusReturned, statusStartedCancelled,
      statusReturnedCancelled]
  have hfrees : (settled p code).countP Step.freesLists = 1 := by
    rcases hcode with rfl | rfl | rfl <;> rfl
  have hbefore : ∀ s ∈ T.opened p packed ++ settled p code, s.freesBuffer = false := by
    intro s hs
    rcases List.mem_append.mp hs with hs | hs
    · rw [opened] at hs
      split at hs <;> simp at hs <;> rcases hs with rfl | rfl | rfl <;> rfl
    · rcases hsettled s hs with (rfl | rfl) | rfl <;> rfl
  have hcount : ∀ f : Step T.ParamsLower → Bool, (∀ h, f (.dropHandle h) = false) →
      (T.opened p packed ++ settled p code ++ T.closed packed).countP f =
        (if T.abiLayout = 0 then 0 else [Step.allocBuffer].countP f) +
          [Step.lowerParams p, .callImport p packed].countP f + (settled p code).countP f +
          (if T.abiLayout = 0 then 0 else [Step.freeBuffer].countP f) := by
    intro f hf
    rw [List.countP_append, List.countP_append, countP_opened, countP_closed,
      countP_handles_eq_zero packed hf, Nat.add_zero]
  have hlists : (T.opened p packed ++ settled p code ++ T.closed packed).countP
      Step.freesLists = 1 := by
    rw [hcount Step.freesLists fun _ => rfl, hfrees]
    simp [Step.freesLists]
  have hhandle : ∀ h, (T.opened p packed ++ settled p code ++ T.closed packed).countP
      (Step.drops h) = if h = packed >>> 4 ∧ h ≠ 0 then 1 else 0 := by
    intro h
    have hnone : (settled p code).countP (Step.drops h) = 0 := by
      rcases hcode with rfl | rfl | rfl <;> rfl
    rw [List.countP_append, List.countP_append, countP_opened, countP_closed, countP_handle, hnone]
    simp [Step.drops]
  exact {
    lists := Nat.le_of_eq hlists
    own := by
      rw [hcount Step.dropsOwn fun _ => rfl]
      rcases hcode with rfl | rfl | rfl <;> simp [Step.dropsOwn, settled, statusReturned,
        statusStartedCancelled, statusReturnedCancelled]
    lifts := by
      rw [hcount Step.lifts fun _ => rfl]
      rcases hcode with rfl | rfl | rfl <;> simp [Step.lifts, settled, statusReturned,
        statusStartedCancelled, statusReturnedCancelled]
    buffer := pairwise_log packed hbefore
    handle := fun h => by rw [hhandle]; split <;> omega
    released := fun _ q packed' hcall => by
      have hrest : ∀ q packed', Step.callImport q packed' ∉ settled p code ++ T.closed packed := by
        intro q packed' hmem
        rcases List.mem_append.mp hmem with hmem | hmem
        · rcases hsettled _ hmem with (h | h) | h <;> cases h
        · rw [closed] at hmem
          split at hmem <;> simp at hmem
      rw [List.append_assoc] at hcall
      obtain ⟨rfl, rfl⟩ := mem_opened_callImport p packed hrest hcall
      exact {
        lists := hlists
        lists_of := by
          rcases hcode with rfl | rfl | rfl <;> simp [settled, statusReturned,
            statusStartedCancelled, statusReturnedCancelled]
        buffer := by
          rw [hcount Step.freesBuffer fun _ => rfl, hcount Step.allocates fun _ => rfl]
          rcases hcode with rfl | rfl | rfl <;> simp [Step.freesBuffer, Step.allocates, settled,
            statusReturned, statusStartedCancelled, statusReturnedCancelled]
        handle := hhandle }
    never_called := fun _ hnever => absurd
      (List.mem_append_left _ (List.mem_append_left _ (callImport_mem_opened p packed)))
      (hnever p packed) }

/-- The log of a call that still waits. -/
theorem Waits.owned (hw : Waits log state) : Owned log none false := by
  obtain ⟨⟨packed, htracks⟩, -⟩ := hw
  have hmem : ∀ s ∈ log, s = .allocBuffer ∨ s = .lowerParams state.paramsLower ∨
      s = .callImport state.paramsLower packed ∨ s = .deallocLists state.paramsLower := by
    intro s hs
    rw [htracks.log, opened] at hs
    split at hs <;> split at hs <;> simp at hs <;> tauto
  have hzero : ∀ f : Step T.ParamsLower → Bool, (∀ s ∈ log, f s = false) → log.countP f = 0 :=
    fun f hf => List.countP_eq_zero.mpr fun s hs => by simp [hf s hs]
  have hnone : ∀ f : Step T.ParamsLower → Bool, f .allocBuffer = false →
      (∀ p, f (.lowerParams p) = false) → (∀ p packed, f (.callImport p packed) = false) →
      (∀ p, f (.deallocLists p) = false) → log.countP f = 0 := by
    intro f h₁ h₂ h₃ h₄
    refine hzero f fun s hs => ?_
    rcases hmem s hs with rfl | rfl | rfl | rfl
    · exact h₁
    · exact h₂ _
    · exact h₃ _ _
    · exact h₄ _
  exact {
    lists := by
      rw [htracks.log, List.countP_append, countP_opened]
      split <;> split <;> simp [Step.freesLists]
    own := hnone _ rfl (fun _ => rfl) (fun _ _ => rfl) fun _ => rfl
    lifts := hnone _ rfl (fun _ => rfl) (fun _ _ => rfl) fun _ => rfl
    buffer := List.pairwise_of_forall_mem_list fun s hs _ _ hfree => by
      rcases hmem s hs with rfl | rfl | rfl | rfl <;> cases hfree
    handle := fun h => by
      rw [hnone (Step.drops h) rfl (fun _ => rfl) (fun _ _ => rfl) fun _ => rfl]
      exact Nat.zero_le 1
    released := nofun
    never_called := nofun }

theorem Ended.owned {completed : Option Code} (h : Ended log completed) :
    Owned log completed true := by
  cases completed with
  | none =>
    obtain rfl : log = [Step.dropParams] := h
    exact ⟨Nat.zero_le _, rfl, rfl, List.pairwise_singleton _ _, fun _ => Nat.zero_le _,
      fun _ _ _ hcall => by simp at hcall, fun _ _ => rfl⟩
  | some code =>
    obtain ⟨hcode, p, packed, rfl⟩ := h
    exact .of_ended p packed hcode

/-! ## Every run -/

/-- At every moment of every run the resources of the call are in order, and the
code of the call does not panic. -/
theorem subtask_owned (T : Subtask) (w : World T.ops)
    (hw : (World.hostSystem T.contract T.logic).Reachable w) :
    Owned w.self.op (completedBy w.calls) w.self.isDone ∧
      ∀ e, World.allowed T.contract w e → w.Obeys T.logic e →
        ∀ text, w.exec e ≠ .error (.op text) := by
  have hinv := World.OpInv.of_reachable hw
  refine ⟨?_, fun e hallowed hok text => World.exec_ne_op hinv hallowed hok id⟩
  cases hinv with
  | fresh s hstate h hcalls =>
    have hlog : w.self.op = [] := h
    have hdone : w.self.isDone = false := by rw [WaitableOperation.isDone, hstate]
    rw [hlog, hcalls, hdone]
    exact ⟨Nat.zero_le _, rfl, rfl, List.Pairwise.nil, fun _ => Nat.zero_le _, by simp, by simp⟩
  | live ip hstate h hcode hcalls =>
    have hdone : w.self.isDone = false := by rw [WaitableOperation.isDone, hstate]
    rw [hcalls, hdone]
    exact Waits.owned h
  | settled hstate h =>
    have hdone : w.self.isDone = true := by rw [WaitableOperation.isDone, hstate]
    rw [hdone]
    exact Ended.owned h

/-- A call that has started is dropped, and the host says that it was cancelled. -/
theorem subtask_owned_cancelled : ∃ w : World wordImport.ops,
    w.self.op = [Step.allocBuffer, .lowerParams (7 : Nat), .callImport (7 : Nat) 0x11,
      .deallocLists (7 : Nat), .freeBuffer, .dropHandle 1] ∧
    Owned (T := wordImport) w.self.op (completedBy w.calls) w.self.isDone := by
  have hpoll : World.allowed wordImport.contract World.freshCall (.poll 0 ⟨1, 1⟩ 0x11) ∧
      World.freshCall.Obeys wordImport.logic (.poll 0 ⟨1, 1⟩ 0x11) :=
    ⟨⟨rfl, rfl, by decide, World.freshCall_startsFresh _⟩,
      fun _ _ => Or.inr ⟨Or.inr rfl, by decide⟩⟩
  have hstarted : (World.hostSystem wordImport.contract wordImport.logic).Reachable
      World.startedCall :=
    .step _ _ (.poll 0 ⟨1, 1⟩ 0x11) (.init _ ⟨World.freshCall_init, fun _ _ => rfl⟩) hpoll rfl
  have hdrop : World.allowed wordImport.contract World.startedCall
        (.drop (some ⟨1, 1⟩) statusReturnedCancelled) ∧
      World.startedCall.Obeys wordImport.logic (.drop (some ⟨1, 1⟩) statusReturnedCancelled) := by
    refine ⟨⟨rfl, by decide, rfl⟩, fun ip hip => ?_⟩
    cases hip
    exact ⟨fun _ => Or.inr (Or.inr rfl), fun _ => Or.inr rfl⟩
  exact ⟨_, rfl, (subtask_owned wordImport _ (hstarted.step _ _
    (.drop (some ⟨1, 1⟩) statusReturnedCancelled) hdrop rfl)).1⟩

end Subtask

end Rt

end WitBindgen
