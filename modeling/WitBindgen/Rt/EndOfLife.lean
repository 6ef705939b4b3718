import WitBindgen.Rt.Driver
import WitBindgen.Rt.ReadBuffer

/-!
# After the other end is gone

Once the host has said that the other end of a stream is dropped, the next
operation on this end must not reach the host. The runs here are whole lives of an
end: one operation after the other, each polled, woken, cancelled and dropped in
any order. The flag that stops later operations is set by every code that reports
the drop together with progress, and by no code that reports it without.
-/

namespace WitBindgen

namespace Rt

namespace Stream

variable {α : Type}

/-! ## The law -/

/-- A code that says that the other end is gone. -/
def tellsDropped (code : Code) : Bool :=
  match ReturnCode.decode code with
  | some (.dropped _) => true
  | _ => false

def Step.starts : Step α → Bool
  | .startWrite .. | .startRead .. => true
  | _ => false

def Step.drops : Step α → Bool
  | .told code => tellsDropped code
  | _ => false

/-- The host has said that the other end is gone. -/
def Gone (log : List (Step α)) : Prop := ∃ s ∈ log, s.drops = true

/-- Nothing is started after that. -/
def StartsBeforeEnd (log : List (Step α)) : Prop :=
  log.Pairwise fun s t => s.drops = true → t.starts = false

/-- What the flag of an end is for. -/
structure Flagged (e : End α) : Prop where
  starts : StartsBeforeEnd e.log
  gone : Gone e.log → e.done = true

variable {O : StreamOps α} {e e' : End α} {code : Code}

theorem Step.quiet_drops {s : Step α} (h : s.quiet = true) : s.drops = false ∧ s.starts = false := by
  cases s <;> first | exact ⟨rfl, rfl⟩ | cases h

theorem Flagged.append {steps : List (Step α)} (h : Flagged e)
    (hsteps : ∀ s ∈ steps, s.starts = true → e.done = false)
    (hlog : e'.log = e.log ++ steps) (hpair : StartsBeforeEnd steps)
    (hgone : Gone steps → e'.done = true) (hdone : e.done = true → e'.done = true) :
    Flagged e' where
  starts := by
    rw [StartsBeforeEnd, hlog]
    refine List.pairwise_append.mpr ⟨h.starts, hpair, fun s hs t ht hdrops => ?_⟩
    cases hstarts : t.starts with
    | false => rfl
    | true => exact absurd ((hsteps t ht hstarts).symm.trans (h.gone ⟨s, hs, hdrops⟩)) nofun
  gone := by
    rintro ⟨s, hs, hdrops⟩
    rw [hlog] at hs
    rcases List.mem_append.mp hs with hs | hs
    · exact hdone (h.gone ⟨s, hs, hdrops⟩)
    · exact hgone ⟨s, hs, hdrops⟩

/-- A start is logged where the flag is not set. -/
theorem Flagged.start {s : Step α} (h : Flagged e) (hdone : e.done = false)
    (hdrops : s.drops = false) : Flagged { e with log := e.log ++ [s] } :=
  h.append (fun _ _ _ => hdone) rfl (List.pairwise_singleton _ _)
    (by rintro ⟨t, ht, htdrops⟩; rw [List.mem_singleton.mp ht, hdrops] at htdrops; cases htdrops) id

theorem Flagged.quiet (steps : List (Step α)) (h : Flagged e) (hdone : e'.done = e.done)
    (hlog : e'.log = e.log ++ steps) (hquiet : ∀ s ∈ steps, s.quiet = true) : Flagged e' := by
  refine h.append (fun s hs hstarts => ?_) hlog ?_ ?_ (hdone ▸ id)
  · rw [(Step.quiet_drops (hquiet s hs)).2] at hstarts
    cases hstarts
  · refine List.pairwise_of_forall_mem_list fun s hs t _ hdrops => ?_
    rw [(Step.quiet_drops (hquiet s hs)).1] at hdrops
    cases hdrops
  · rintro ⟨s, hs, hdrops⟩
    rw [(Step.quiet_drops (hquiet s hs)).1] at hdrops
    cases hdrops

/-- A code is looked at, and the flag is set if it has to be. -/
theorem Flagged.told {steps : List (Step α)} (h : Flagged e)
    (hlog : e'.log = e.log ++ Step.told code :: steps) (hquiet : ∀ s ∈ steps, s.quiet = true)
    (hdone : e.done = true → e'.done = true) (hset : tellsDropped code = true → e'.done = true) :
    Flagged e' := by
  have hstarts : ∀ s ∈ Step.told code :: steps, s.starts = false := by
    intro s hs
    rcases List.mem_cons.mp hs with rfl | hs
    · rfl
    · exact (Step.quiet_drops (hquiet s hs)).2
  refine h.append (fun s hs hs' => ?_) hlog ?_ ?_ hdone
  · rw [hstarts s hs] at hs'
    cases hs'
  · exact List.pairwise_of_forall_mem_list fun _ _ t ht _ => hstarts t ht
  · rintro ⟨s, hs, hdrops⟩
    rcases List.mem_cons.mp hs with rfl | hs
    · exact hset hdrops
    · rw [(Step.quiet_drops (hquiet s hs)).1] at hdrops
      cases hdrops

/-! ## The calls -/

/-- A code with which the flag is set if it has to be: it does not report the drop
alone. -/
def WithProgress (code : Code) : Prop := ReturnCode.decode code ≠ some (.dropped 0)

instance (code : Code) : Decidable (WithProgress code) := inferInstanceAs (Decidable (_ ≠ _))

theorem update_flagged {I B : Type} {state : I} {buf : B} {take : Nat → EndM α B}
    (htake : ∀ amt, Quiet (take amt)) (he : Flagged e) (hcode : WithProgress code ∨ e.done = true) :
    Ends (fun _ => True) (fun r : Except I (StreamResult × B) × End α => Flagged r.2)
      (update state buf take code e) := by
  refine (update_ends htake code e).mono fun r hr => ?_
  obtain ⟨-, ⟨steps, hlog, hquiet⟩, hr⟩ := hr
  refine he.told hlog hquiet ?_ ?_
  · intro hdone
    split at hr
    · exact hr.2.trans hdone
    · exact hr.2.trans hdone
    · exact hr.2
    · exact hr.2.trans hdone
  · intro hdrops
    rw [tellsDropped] at hdrops
    split at hr
    · rename_i hdecode
      rw [hdecode] at hdrops
      cases hdrops
    · rename_i hdecode
      exact hr.2.trans (hcode.resolve_left fun hprogress => hprogress hdecode)
    · exact hr.2
    · rename_i hne₀ hne₁ hne₂
      split at hdrops
      · rename_i amt hdecode
        cases amt with
        | zero => exact absurd hdecode hne₁
        | succ amt => exact absurd hdecode (hne₂ amt)
      · cases hdrops

theorem writeStart_done (buf : AbiBuffer α) (answer : Code) (h : e.done = true) :
    writeStart buf answer e = .ok ((dropped, buf), e) := by
  have hrun : writeStart buf answer e = (if e.done then pure (dropped, buf) else do
      emit (.startWrite e.handle buf.cursor (min buf.remaining maxLength))
      pure (answer, buf) : EndM α _) e := rfl
  rw [hrun, if_pos h]
  rfl

theorem writeStart_open (buf : AbiBuffer α) (answer : Code) (h : e.done = false) :
    writeStart buf answer e = .ok ((answer, buf), { e with
      log := e.log ++ [.startWrite e.handle buf.cursor (min buf.remaining maxLength)] }) := by
  have hrun : writeStart buf answer e = (if e.done then pure (dropped, buf) else do
      emit (.startWrite e.handle buf.cursor (min buf.remaining maxLength))
      pure (answer, buf) : EndM α _) e := rfl
  rw [hrun, if_neg (by simp [h])]
  rfl

theorem readHandle_ends (e : End α) :
    Ends (fun _ => True) (fun r => r.2 = e) ((readHandle : EndM α Waitable) e) := by
  rw [readHandle_run]
  split
  · trivial
  · exact rfl

theorem readStart_flagged (buf : Buffer) (answer : Code) (he : Flagged e) (h : e.done = false) :
    Ends (fun _ => True) (fun r => r.1.1 = answer ∧ Flagged r.2) (readStart O buf answer e) := by
  rw [readStart_open h]
  refine (Quiet.readPointer buf e).bind fun r hr => ?_
  obtain ⟨-, hdone, steps, hlog, hquiet⟩ := hr
  have hslab : Flagged r.2 := he.quiet _ hdone hlog hquiet
  refine (readHandle_ends r.2).bind fun r' hr' => ?_
  obtain ⟨handle, e'⟩ := r'
  obtain rfl : e' = r.2 := hr'
  obtain ⟨-, hsame, hlog⟩ := End.transfer_frame (O := O)
    { r.2 with log := r.2.log ++ [.startRead handle r.1.1 (min buf.spare maxLength)] } r.1.1 answer
  have hstart := hslab.start (s := .startRead handle r.1.1 (min buf.spare maxLength)) (hdone.trans h) rfl
  exact ⟨rfl, hstart.quiet [] hsame (hlog.trans (List.append_nil _).symm) nofun⟩

variable (O)

/-- The host never reports the drop alone; nothing is asked of it once the end is
marked done. -/
def writeLogic : (writeOp O).Logic where
  MayPanic _ := True
  Fresh e _ := Flagged (α := α) e
  Starts e _ answer := End.done (α := α) e = false → WithProgress answer
  Live e _ := Flagged (α := α) e
  Tells e _ code := Flagged (α := α) e ∧ (WithProgress code ∨ End.done (α := α) e = true)
  Reports _ _ _ code := WithProgress code
  Answers _ _ _ answer := WithProgress answer
  Over e _ := Flagged (α := α) e
  start buf answer e he hanswer := by
    cases hdone : End.done (α := α) e with
    | true =>
      refine Eq.subst (motive := Ends _ _) (writeStart_done (α := α) buf answer hdone).symm ?_
      exact ⟨he, Or.inr hdone⟩
    | false =>
      refine Eq.subst (motive := Ends _ _) (writeStart_open (α := α) buf answer hdone).symm ?_
      exact ⟨Flagged.start he hdone rfl, Or.inl (hanswer hdone)⟩
  report e ip pending code he _ hcode := ⟨he, Or.inl hcode⟩
  update buf code e h := by
    refine (update_flagged (fun amt => Quiet.advance buf amt) h.1 h.2).mono fun r hr => ?_
    obtain ⟨r, e'⟩ := r
    cases r with
    | ok result => exact ⟨hr, hr⟩
    | error ip => exact ⟨hr, fun _ => id⟩
  startCancelled buf e he := he
  waitable ip e he := rfl
  cancel ip answer e he hanswer :=
    ⟨Flagged.quiet [.cancelWrite _] he rfl rfl (by simp [Step.quiet]), Or.inl hanswer⟩

/-- As `writeLogic`. -/
def readLogic : (readOp O).Logic where
  MayPanic _ := True
  Fresh e _ := Flagged (α := α) e
  Starts e _ answer := End.done (α := α) e = false → WithProgress answer
  Live e _ := Flagged (α := α) e
  Tells e _ code := Flagged (α := α) e ∧ (WithProgress code ∨ End.done (α := α) e = true)
  Reports _ _ _ code := WithProgress code
  Answers _ _ _ answer := WithProgress answer
  Over e _ := Flagged (α := α) e
  start buf answer e he hanswer := by
    cases hdone : End.done (α := α) e with
    | true =>
      refine Eq.subst (motive := Ends _ _) (readStart_done (O := O) buf answer hdone).symm ?_
      exact ⟨he, Or.inr hdone⟩
    | false =>
      refine (readStart_flagged (O := O) buf answer he hdone).mono fun r hr => ?_
      exact ⟨hr.2, Or.inl (hr.1.symm ▸ hanswer hdone)⟩
  report e ip pending code he _ hcode := ⟨he, Or.inl hcode⟩
  update state code e h := by
    refine (update_flagged (fun amt => Quiet.readInto state amt) h.1 h.2).mono fun r hr => ?_
    obtain ⟨r, e'⟩ := r
    cases r with
    | ok result => exact ⟨hr, hr⟩
    | error ip => exact ⟨hr, fun _ => id⟩
  startCancelled buf e he := he
  waitable ip e he := readHandle_ends (α := α) e
  cancel ip answer e he hanswer := by
    refine (readHandle_ends (α := α) e).bind fun r hr => ?_
    obtain ⟨handle, e'⟩ := r
    obtain rfl : e' = e := hr
    have hasked : Flagged { e' with log := e'.log ++ [.cancelRead handle] } :=
      Flagged.quiet [.cancelRead _] he rfl rfl (by simp [Step.quiet])
    obtain ⟨-, hsame, hlog⟩ := End.report_frame (O := O) { e' with log := e'.log ++ [.cancelRead handle] } answer
    exact ⟨hasked.quiet [] hsame (hlog.trans (List.append_nil _).symm) nofun, Or.inl hanswer⟩

/-! ## Lives of an end -/

/-- A new end. -/
def New (e : End α) : Prop := e.done = false ∧ e.log = []

theorem New.flagged (h : New e) : Flagged e where
  starts := by rw [h.2]; exact List.Pairwise.nil
  gone := by rw [h.2]; exact fun ⟨_, hs, _⟩ => nomatch hs

/-- The lives of a writable end, with what the host may do. -/
abbrev writes (host : World (writeOp O) → Event → Prop) :=
  World.lives (writeContract O) (New (α := α)) host

/-- The lives of a readable end. -/
abbrev reads (host : World (readOp O) → Event → Prop) :=
  World.lives (readContract O) (New (α := α)) host

/-- Nothing is started once the host has said that the reader is gone, and a write
then completes as dropped by itself. -/
structure WriteEnds (w : World (writeOp O)) : Prop where
  starts : StartsBeforeEnd (α := α) (End.log w.self.op)
  local_drop : ∀ buf, w.self.state = .start buf → Gone (α := α) (End.log w.self.op) →
    ∀ cx answer, ∃ w', w.pollComplete cx answer = .ok (.ready (.dropped, buf), w')

/-- As `WriteEnds`, of the readable end. -/
structure ReadEnds (w : World (readOp O)) : Prop where
  starts : StartsBeforeEnd (α := α) (End.log w.self.op)
  local_drop : ∀ buf, w.self.state = .start buf → Gone (α := α) (End.log w.self.op) →
    ∀ cx answer, ∃ w', w.pollComplete cx answer = .ok (.ready (.dropped, buf), w')

variable {O}

theorem opInv_flagged {w : World (writeOp O)} (h : World.OpInv (writeLogic O) w) :
    Flagged (α := α) w.self.op := by
  cases h with
  | fresh _ _ h => exact h
  | live _ _ h => exact h
  | settled _ h => exact h

theorem opInv_flagged_read {w : World (readOp O)} (h : World.OpInv (readLogic O) w) :
    Flagged (α := α) w.self.op := by
  cases h with
  | fresh _ _ h => exact h
  | live _ _ h => exact h
  | settled _ h => exact h

/-- A code that says that nothing was transferred to an end that is gone. -/
theorem update_dropped {I B : Type} (state : I) (buf : B) (take : Nat → EndM α B) (e : End α) :
    update state buf take dropped e =
      .ok (.ok (.dropped, buf), { e with log := e.log ++ [Step.told dropped] }) := rfl

theorem OpInv.writeEnds {w : World (writeOp O)} (h : World.OpInv (writeLogic O) w) :
    WriteEnds O w where
  starts := (opInv_flagged h).starts
  local_drop buf hstate hgone cx answer :=
    World.pollComplete_ready hstate
      (writeStart_done (α := α) buf answer ((opInv_flagged h).gone hgone))
      (update_dropped buf buf (fun amt => buf.advance O amt) _) cx

theorem OpInv.readEnds {w : World (readOp O)} (h : World.OpInv (readLogic O) w) : ReadEnds O w where
  starts := (opInv_flagged_read h).starts
  local_drop buf hstate hgone cx answer :=
    World.pollComplete_ready hstate
      (readStart_done (O := O) buf answer ((opInv_flagged_read h).gone hgone))
      (update_dropped (buf, none) buf (fun amt => readInto O (buf, none) amt) _) cx

variable (O) in
/-- While the host reports no drop without progress, an end that is gone is left
alone. -/
theorem stream_end_of_life :
    (∀ w, (writes O fun w e => w.Obeys (writeLogic O) e).Reachable w → WriteEnds O w) ∧
      ∀ w, (reads O fun w e => w.Obeys (readLogic O) e).Reachable w → ReadEnds O w :=
  ⟨fun _ h => OpInv.writeEnds (World.OpInv.of_lives (fun _ _ => New.flagged) (fun _ _ _ => id) h),
    fun _ h => OpInv.readEnds (World.OpInv.of_lives (fun _ _ => New.flagged) (fun _ _ _ => id) h)⟩

/-! ## Two operations -/

/-- A stream of bytes. -/
def byteStream : StreamOps UInt8 where
  elemSize := 1
  elemAlign := 1
  nativeAbiMatchesCanonicalAbi := true
  containsLists := false
  lift bytes := bytes.headD 0
  rustSize := 1
  load bytes := bytes.headD 0
  store a := [a]
  load_store _ := rfl
  length_store _ := rfl
  rustSize_eq _ := rfl
  source _ := [9]
  length_source _ := rfl
  overflowChecks := true

/-- An end of it, with nothing in flight. -/
abbrev byteEnd (done : Bool) (received : Nat) (log : List (Step UInt8)) : End UInt8 :=
  ⟨5, done, fun _ _ => 0, none, received, log⟩

/-- An end of it that was not marked done, with an operation that waits nowhere. -/
def byteWorld (S : WaitableOp) (op : S.σ) (state : WaitableOperationState S) (calls : List OpCall)
    (dropped : Bool) : World S where
  self := ⟨op, state, none, ⟨none, none⟩⟩
  addr := 0
  tasks := .none
  calls := calls
  dropped := dropped

abbrev byteWrite (log : List (Step UInt8)) := byteWorld (writeOp byteStream) (byteEnd false 0 log)

abbrev byteRead (log : List (Step UInt8)) := byteWorld (readOp byteStream) (byteEnd false 0 log)

theorem not_startsBeforeEnd {s t : Step UInt8} (code : Code) (hdrops : tellsDropped code = true)
    (ht : t.starts = true) (rest : List (Step UInt8)) :
    ¬ StartsBeforeEnd (s :: .told code :: t :: rest) := by
  intro h
  rw [StartsBeforeEnd] at h
  have hnone := (List.pairwise_cons.mp (List.pairwise_cons.mp h).2).1 t (by simp) hdrops
  rw [ht] at hnone
  cases hnone

/-- The host's answer that the other end is gone does not keep the next operation
from reaching the host, on either end. -/
theorem stream_restarts_after_drop :
    (∃ w, (writes byteStream fun _ _ => True).Reachable w ∧ ¬ WriteEnds byteStream w) ∧
      ∃ w, (reads byteStream fun _ _ => True).Reachable w ∧ ¬ ReadEnds byteStream w := by
  constructor
  · have h₀ : (writes byteStream fun _ _ => True).Reachable (byteWrite [] (.start ⟨[1], 0⟩) [] false) :=
      .init _ ⟨⟨_, _, rfl, fun _ _ => nofun, rfl, rfl⟩, rfl, rfl⟩
    have h₁ : (writes byteStream fun _ _ => True).Reachable
        (byteWrite [.startWrite 5 0 1, .told 1] .done [.start, .update 1 true] false) :=
      h₀.step _ _ (.op (.poll 0 ⟨2, 1⟩ 1))
        ⟨⟨rfl, rfl, by decide, fun _ _ _ _ _ _ _ _ _ => rfl⟩, trivial⟩ rfl
    have h₂ : (writes byteStream fun _ _ => True).Reachable
        (byteWrite [.startWrite 5 0 1, .told 1] .done [.start, .update 1 true] true) :=
      h₁.step _ _ (.op (.drop none 0)) ⟨⟨rfl, nofun, rfl⟩, trivial⟩ rfl
    have h₃ : (writes byteStream fun _ _ => True).Reachable
        (byteWrite [.startWrite 5 0 1, .told 1] (.start ⟨[1], 0⟩) [] false) :=
      h₂.step _ _ (.next ⟨[1], 0⟩ 0) ⟨rfl, fun _ _ => nofun⟩ rfl
    have h₄ : (writes byteStream fun _ _ => True).Reachable
        (byteWrite [.startWrite 5 0 1, .told 1, .startWrite 5 0 1, .told 1] .done
          [.start, .update 1 true] false) :=
      h₃.step _ _ (.op (.poll 0 ⟨2, 1⟩ 1))
        ⟨⟨rfl, rfl, by decide, fun _ _ _ _ _ _ _ _ _ => rfl⟩, trivial⟩ rfl
    exact ⟨_, h₄, fun hends => not_startsBeforeEnd 1 rfl rfl _ hends.starts⟩
  · have h₀ : (reads byteStream fun _ _ => True).Reachable (byteRead [] (.start ⟨0, 0, 1⟩) [] false) :=
      .init _ ⟨⟨_, _, rfl, fun _ _ => nofun, rfl, rfl⟩, rfl, rfl⟩
    have h₁ : (reads byteStream fun _ _ => True).Reachable
        (byteRead [.startRead 5 ⟨.vec 0, 0⟩ 1, .told 1] .done [.start, .update 1 true] false) :=
      h₀.step _ _ (.op (.poll 0 ⟨2, 1⟩ 1))
        ⟨⟨rfl, rfl, by decide, fun _ _ _ _ _ _ _ _ _ => rfl⟩, trivial⟩ rfl
    have h₂ : (reads byteStream fun _ _ => True).Reachable
        (byteRead [.startRead 5 ⟨.vec 0, 0⟩ 1, .told 1] .done [.start, .update 1 true] true) :=
      h₁.step _ _ (.op (.drop none 0)) ⟨⟨rfl, nofun, rfl⟩, trivial⟩ rfl
    have h₃ : (reads byteStream fun _ _ => True).Reachable
        (byteRead [.startRead 5 ⟨.vec 0, 0⟩ 1, .told 1] (.start ⟨0, 0, 1⟩) [] false) :=
      h₂.step _ _ (.next ⟨0, 0, 1⟩ 0) ⟨rfl, fun _ _ => nofun⟩ rfl
    have h₄ : (reads byteStream fun _ _ => True).Reachable
        (byteRead [.startRead 5 ⟨.vec 0, 0⟩ 1, .told 1, .startRead 5 ⟨.vec 0, 0⟩ 1, .told 1] .done
          [.start, .update 1 true] false) :=
      h₃.step _ _ (.op (.poll 0 ⟨2, 1⟩ 1))
        ⟨⟨rfl, rfl, by decide, fun _ _ _ _ _ _ _ _ _ => rfl⟩, trivial⟩ rfl
    exact ⟨_, h₄, fun hends => not_startsBeforeEnd 1 rfl rfl _ hends.starts⟩

/-- A drop that comes with an element marks the end, and the next write does not
reach the host. -/
theorem stream_end_of_life_progress : ∃ w : World (writeOp byteStream),
    (w.self.op : End UInt8).log = [.startWrite 5 0 1, .told 0x11, .told 1] ∧
      WriteEnds byteStream w := by
  have h₀ : (writes byteStream fun w e => w.Obeys (writeLogic byteStream) e).Reachable
      (byteWrite [] (.start ⟨[1], 0⟩) [] false) :=
    .init _ ⟨⟨_, _, rfl, fun _ _ => nofun, rfl, rfl⟩, rfl, rfl⟩
  have h₁ : (writes byteStream fun w e => w.Obeys (writeLogic byteStream) e).Reachable
      (byteWorld (writeOp byteStream) (byteEnd true 0 [.startWrite 5 0 1, .told 0x11]) .done
        [.start, .update 0x11 true] false) :=
    h₀.step _ _ (.op (.poll 0 ⟨2, 1⟩ 0x11))
      ⟨⟨rfl, rfl, by decide, fun _ _ _ _ _ _ _ _ _ => rfl⟩, fun _ _ _ => by decide⟩ rfl
  have h₂ : (writes byteStream fun w e => w.Obeys (writeLogic byteStream) e).Reachable
      (byteWorld (writeOp byteStream) (byteEnd true 0 [.startWrite 5 0 1, .told 0x11]) .done
        [.start, .update 0x11 true] true) :=
    h₁.step _ _ (.op (.drop none 0)) ⟨⟨rfl, nofun, rfl⟩, fun _ h => nomatch h⟩ rfl
  have h₃ : (writes byteStream fun w e => w.Obeys (writeLogic byteStream) e).Reachable
      (byteWorld (writeOp byteStream) (byteEnd true 0 [.startWrite 5 0 1, .told 0x11])
        (.start ⟨[1], 0⟩) [] false) :=
    h₂.step _ _ (.next ⟨[1], 0⟩ 0) ⟨rfl, fun _ _ => nofun⟩ rfl
  refine ⟨_, rfl, (stream_end_of_life byteStream).1
    (byteWorld (writeOp byteStream) (byteEnd true 0 [.startWrite 5 0 1, .told 0x11, .told 1])
      .done [.start, .update 1 true] false) ?_⟩
  exact h₃.step _ _ (.op (.poll 0 ⟨2, 1⟩ 1))
    ⟨⟨rfl, rfl, by decide, fun _ _ _ _ _ _ _ _ _ => rfl⟩, fun _ _ h => nomatch h⟩ rfl

end Stream

end Rt

end WitBindgen
