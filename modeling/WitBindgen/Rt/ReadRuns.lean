import Mathlib.Data.List.Induction
import WitBindgen.Rt.ReadMemory

/-!
# What reads append

A reader is read from again and again, into one `Vec` or into several, and each read
is polled, woken, cancelled or dropped at any time. Whatever the host answers, the
`Vec` that comes back from a read is the one that went in followed by the elements
that the host reported for it, and no element is skipped or lifted twice between
two reads. `collect` is a loop of such reads.
-/

namespace WitBindgen

namespace Rt

open Blocks (Pointer Memory)

namespace Stream

variable {α : Type} {O : StreamOps α}

/-! ## One read after another -/

/-- A read that is over: the contents of its `Vec` when it was given, what came back with
which contents, and whether that went to the caller. -/
structure Finished (α : Type) where
  before : List α
  result : StreamResult
  buf : Buffer
  after : List α
  kept : Bool

/-- The elements that came back on top of those that went in. -/
def Finished.gained (f : Finished α) : List α := f.after.drop f.before.length

def amounts (fs : List (Finished α)) : List Nat := fs.map fun f => f.result.count

def total (fs : List (Finished α)) : Nat := (amounts fs).sum

variable (O) in
/-- The reads of one reader: the last one, whose `Vec` held `before`, and those that are
over. -/
structure Session where
  world : World (readOp O)
  before : List α
  finished : List (Finished α)

inductive SessionEvent where
  | op (e : Event)
  /-- The caller has used its memory and starts another read. -/
  | next (memory : Memory Block) (buf : Buffer) (addr : Ptr)

/-- What happens to the operation. -/
def SessionEvent.life (O : StreamOps α) : SessionEvent → World.LifeEvent (readOp O)
  | .op e => .op e
  | .next _ buf addr => .next buf addr

namespace Session

variable (s : Session O)

def finish (w : World (readOp O)) (r : StreamResult × Buffer) (kept : Bool) : Session O :=
  { s with
    world := w
    finished := s.finished ++ [⟨s.before, r.1, r.2, r.2.items O (End.memory (α := α) w.self.op), kept⟩] }

def polled (r : Poll (StreamResult × Buffer) × World (readOp O)) : Session O :=
  match r.1 with
  | .ready result => s.finish r.2 result true
  | .pending => { s with world := r.2 }

/-- The event is for the read in flight. -/
def Ours (t : Ptr) (h : Waitable) : Prop := s.world.tasks.waitables t h = some s.world.addr

instance (t : Ptr) (h : Waitable) : Decidable (s.Ours t h) := inferInstanceAs (Decidable (_ = _))

/-- The host has done what it reports with an event. -/
def reported (t : Ptr) (h : Waitable) (code : Code) : World (readOp O) :=
  if s.Ours t h then s.world.setOp (End.report O s.world.self.op code) else s.world

/-- The future of a read that is dropped is cancelled, and what that returns goes
with it. -/
def exec : SessionEvent → Except Panic (Session O)
  | .op (.poll waker task answer) => s.polled <$> s.world.pollComplete ⟨waker, some task⟩ answer
  | .op (.cancel current answer) => (fun r => s.finish r.2 r.1 true) <$> s.world.cancel current answer
  | .op (.drop current answer) =>
    if s.world.self.isDone then .ok { s with world := s.world.dropFields }
    else (fun r => s.finish r.2.dropFields r.1 false) <$> s.world.cancel current answer
  | .op (.deliver t h code) =>
    (fun w => { s with world := w }) <$> (s.reported t h code).deliverWaitableEvent t h code
  | .op (.other ts) => .ok { s with world := s.world.setTasks ts }
  | .next memory buf addr => .ok {
      world := ⟨.new { (s.world.self.op : End α) with memory } buf, addr, s.world.tasks, [], false⟩
      before := buf.items O memory
      finished := s.finished }

/-- The host reports a read that is in flight. -/
def InFlight : SessionEvent → Prop
  | .op (.deliver t h _) => s.Ours t h → (End.target (α := α) s.world.self.op).isSome
  | _ => True

end Session

variable (O) in
/-- Every way to read from a new reader. -/
def sessions : System (Session O) SessionEvent Panic where
  init s := (reads O fun _ _ => True).init s.world ∧
    End.received (α := α) s.world.self.op = 0 ∧ End.target (α := α) s.world.self.op = none ∧
    (∃ buf, s.world.self.state = .start buf ∧
      s.before = Buffer.items O (End.memory (α := α) s.world.self.op) buf) ∧ s.finished = []
  allowed s e := (reads O fun _ _ => True).allowed s.world (e.life O) ∧ s.InFlight e
  exec s e := s.exec e

variable (O) in
/-- Each read got the elements after those of the reads before it. -/
def Consecutive (fs : List (Finished α)) : Prop :=
  ∀ fs₁ f fs₂, fs = fs₁ ++ f :: fs₂ → f.after = f.before ++ slice O (total fs₁) f.result.count

theorem total_append (fs fs' : List (Finished α)) : total (fs ++ fs') = total fs + total fs' := by
  simp [total, amounts]

theorem Consecutive.append {fs : List (Finished α)} {f : Finished α} (h : Consecutive O fs)
    (hf : f.after = f.before ++ slice O (total fs) f.result.count) : Consecutive O (fs ++ [f]) := by
  intro fs₁ g fs₂ heq
  rcases List.eq_nil_or_concat fs₂ with rfl | ⟨fs₂', last, rfl⟩
  · obtain ⟨rfl, hlast⟩ := List.append_inj' heq rfl
    cases hlast
    exact hf
  · have hsplit : fs ++ [f] = (fs₁ ++ g :: fs₂') ++ [last] := by rw [heq]; simp
    exact h fs₁ g fs₂' (List.append_inj' hsplit rfl).1

/-- Nothing is in flight. -/
def Session.Idle (s : Session O) : Prop :=
  Accounts O (amounts s.finished) 0 (s.world.self.op : End α) ∧
    End.target (α := α) s.world.self.op = none

structure Session.Inv (s : Session O) : Prop where
  consecutive : Consecutive O s.finished
  driven : World.Driven (readReturns O (amounts s.finished) s.before) s.world
  idle : s.world.self.state = .done → s.Idle
  dropped : s.world.dropped = true → s.world.self.state = .done

theorem Session.Inv.returned {s : Session O} {w : World (readOp O)} {r : StreamResult × Buffer}
    (h : s.Inv) (hdone : w.self.state = .done)
    (hr : Appended O (amounts s.finished) s.before w.self.op r) (kept : Bool) : (s.finish w r kept).Inv where
  consecutive := h.consecutive.append hr.items
  driven := World.Driven.of_done hdone
  idle _ := by
    have hamounts : amounts (s.finish w r kept).finished = amounts s.finished ++ [r.1.count] := List.map_append
    refine ⟨?_, hr.target⟩
    rw [hamounts]
    exact hr.accounts
  dropped _ := hdone

theorem Session.Inv.polled {s : Session O} {r : Poll (StreamResult × Buffer) × World (readOp O)}
    (h : s.Inv) (hdropped : s.world.dropped = false)
    (hr : World.ReturnedOrBlocked (readReturns O (amounts s.finished) s.before) s.world.dropped r) :
    (s.polled r).Inv := by
  obtain ⟨r, w⟩ := r
  cases r with
  | ready result => exact h.returned hr.1 hr.2 true
  | pending =>
    obtain ⟨state, hstate, hcode, hreading, hkept⟩ := hr
    have hstate' : w.self.state = .inProgress state := hstate
    refine ⟨h.consecutive, ?_, fun hdone => ?_, fun hdrop => ?_⟩
    · exact World.Driven.of_blocked hstate' hcode hreading
    · have hdone' : w.self.state = .done := hdone
      cases hstate'.symm.trans hdone'
    · have hdrop' : w.dropped = true := hdrop
      cases (hkept.trans hdropped).symm.trans hdrop'

/-- The host is reading for the operation that is in progress. -/
theorem Session.Inv.reading {s : Session O} (h : s.Inv)
    (htarget : (End.target (α := α) s.world.self.op).isSome) :
    ∃ state, s.world.self.state = .inProgress state ∧
      Reading O (amounts s.finished) s.before s.world.self.op state := by
  have hdriven := h.driven
  rw [World.Driven] at hdriven
  cases hstate : s.world.self.state with
  | start buf =>
    rw [hstate] at hdriven
    have hnone : End.target (α := α) s.world.self.op = none := hdriven.1.2.1
    rw [hnone] at htarget
    cases htarget
  | done =>
    rw [(h.idle hstate).2] at htarget
    cases htarget
  | inProgress state =>
    refine ⟨state, rfl, ?_⟩
    rw [hstate] at hdriven
    cases hcode : s.world.self.completionStatus.code with
    | none => rw [hcode] at hdriven; exact hdriven
    | some code =>
      rw [hcode] at hdriven
      exact ToLookAt.reading (e := s.world.self.op) hdriven htarget

theorem Session.Inv.delivered {s : Session O} (h : s.Inv) (t : Ptr) (waitable : Waitable) (code : Code)
    (hflight : s.Ours t waitable → (End.target (α := α) s.world.self.op).isSome) :
    Ends (fun _ => True) (fun w => Session.Inv { s with world := w })
      ((s.reported t waitable code).deliverWaitableEvent t waitable code) := by
  refine (World.deliver_keeps t waitable code).mono fun w hw => ?_
  obtain ⟨hop, hstate, hdropped, hcode⟩ := hw
  by_cases hours : s.Ours t waitable
  -- the host has put the elements in place before the code is delivered
  · obtain ⟨state, hprogress, hreading⟩ := h.reading (hflight hours)
    have hreported : s.reported t waitable code =
        s.world.setOp (End.report O s.world.self.op code) := if_pos hours
    rw [hreported] at hop hstate hdropped hcode
    have hstate' : w.self.state = .inProgress state := hstate.trans hprogress
    have hcode' : w.self.completionStatus.code = some code := hcode.trans (if_pos hours)
    refine ⟨h.consecutive, ?_, fun hdone => ?_, fun hdrop => ?_⟩
    · refine World.Driven.of_told hstate' hcode' ?_
      rw [hop]
      exact hreading.report code
    · cases hstate'.symm.trans hdone
    · exact hstate.trans (h.dropped (hdropped.symm.trans hdrop))
  · have hreported : s.reported t waitable code = s.world := if_neg hours
    rw [hreported] at hop hstate hdropped hcode
    have hcode' : w.self.completionStatus.code = s.world.self.completionStatus.code :=
      hcode.trans (if_neg hours)
    refine ⟨h.consecutive, ?_, fun hdone => ?_, fun hdrop => ?_⟩
    · have hdriven := h.driven
      rw [World.Driven] at hdriven ⊢
      rw [hstate, hcode', hop]
      exact hdriven
    · have hidle := h.idle (hstate.symm.trans hdone)
      rw [Session.Idle] at hidle ⊢
      rw [hop]
      exact hidle
    · exact hstate.trans (h.dropped (hdropped.symm.trans hdrop))

/-- Each event keeps the accounts. -/
theorem Session.Inv.exec {s : Session O} (h : s.Inv) {e : SessionEvent}
    (hallowed : (sessions O).allowed s e) : Ends (fun _ => True) (fun s' : Session O => s'.Inv) (s.exec e) := by
  have hdriven := h.driven
  cases e with
  | next memory buf addr =>
    -- only a read that is over is followed by another
    have hdone := h.dropped hallowed.1.1
    obtain ⟨haccounts, htarget⟩ := h.idle hdone
    exact ⟨h.consecutive, ⟨⟨⟨haccounts.received, haccounts.lifted, haccounts.reported⟩, htarget, rfl⟩, rfl⟩,
      nofun, nofun⟩
  | op e =>
    cases e with
    | poll waker task answer =>
      exact Ends.map ((World.pollComplete_returns _ answer hdriven).mono fun r hr =>
        h.polled hallowed.1.1.1 hr)
    | cancel current answer =>
      exact Ends.map ((World.cancel_returns current answer hdriven).mono fun r hr =>
        h.returned hr.1 hr.2 true)
    | drop current answer =>
      rw [Session.exec]
      split
      · rename_i hdone
        have hstate : s.world.self.state = .done := isDone_iff.mp hdone
        exact ⟨h.consecutive, World.Driven.of_done hstate, fun _ => h.idle hstate, fun _ => hstate⟩
      · exact Ends.map ((World.cancel_returns current answer hdriven).mono fun r hr =>
          h.returned (w := r.2.dropFields) hr.1 hr.2 false)
    | deliver t waitable code => exact Ends.map (h.delivered t waitable code hallowed.2)
    | other ts => exact ⟨h.consecutive, h.driven, h.idle, h.dropped⟩

theorem Session.Inv.initial {s : Session O} (h : (sessions O).init s) : s.Inv := by
  obtain ⟨⟨⟨op, buf', hnew, -, -, hdropped⟩, -, hlog⟩, hreceived, htarget, ⟨buf, hstate, hbefore⟩, hfinished⟩ := h
  have hcode : s.world.self.completionStatus.code = none := by rw [hnew]; rfl
  refine ⟨?_, ?_, fun hdone => ?_, fun hdrop => ?_⟩
  · rw [hfinished]
    exact fun fs₁ f fs₂ heq => absurd heq (by simp)
  · rw [World.Driven, hstate, hfinished]
    refine ⟨⟨⟨hreceived, ?_, ?_⟩, htarget, hbefore.symm⟩, hcode⟩
    · rw [hlog]
      split <;> rfl
    · rw [hlog]
      rfl
  · cases hstate.symm.trans hdone
  · cases hdropped.symm.trans hdrop

theorem Session.Inv.of_reachable {s : Session O} (h : (sessions O).Reachable s) : s.Inv :=
  System.Reachable.invariant (I := Session.Inv (O := O)) (fun _ => Session.Inv.initial)
    (fun _ _ _ hinv hallowed hexec => (hinv.exec hallowed).of_ok hexec) h

/-! ## Nothing is lost -/

theorem Accounts.gained {fs : List (Finished α)} (h : Consecutive O fs) :
    fs.flatMap Finished.gained = slice O 0 (total fs) := by
  induction fs using List.reverseRecOn with
  | nil => rfl
  | append_singleton fs f ih =>
    have hfs : Consecutive O fs := fun fs₁ g fs₂ heq =>
      h fs₁ g (fs₂ ++ [f]) (by rw [heq]; simp)
    have hf := h fs f [] rfl
    have hgained : f.gained = slice O (total fs) f.result.count := by
      rw [Finished.gained, hf, List.drop_left]
    have htotal : total (fs ++ [f]) = total fs + f.result.count := by
      rw [total_append]
      simp [total, amounts]
    rw [List.flatMap_append, ih hfs, htotal, slice_add, Nat.zero_add, ← hgained]
    simp

/-- The results that callers got hold every element that the host reported. -/
def Session.KeepsAll (s : Session O) : Prop :=
  (s.finished.filter fun f => f.kept).flatMap Finished.gained = slice O 0 (total s.finished)

/-- What the reads of a session append. -/
structure ReadsAppend (s : Session O) : Prop where
  /-- A read appends what the host reported for it, next in the order of the source. -/
  appends : Consecutive O s.finished
  reported : reportedIn (α := α) (End.log s.world.self.op) = (amounts s.finished).filter (0 < ·)
  /-- Each element is lifted once, if at all. -/
  lifted : liftedIn (α := α) (End.log s.world.self.op) =
    if O.nativeAbiMatchesCanonicalAbi then [] else (List.range (total s.finished)).map O.source
  /-- Between reads the host has delivered no more than it has reported. -/
  received : s.world.self.state = .done → End.received (α := α) s.world.self.op = total s.finished
  /-- Only a read whose future is dropped takes elements with it. -/
  keeps : (∀ f ∈ s.finished, f.kept = false → f.result.count = 0) → s.KeepsAll

theorem gained_nil {fs : List (Finished α)} (hfs : Consecutive O fs) {f : Finished α} (hf : f ∈ fs)
    (hcount : f.result.count = 0) : f.gained = [] := by
  obtain ⟨fs₁, fs₂, heq⟩ := List.append_of_mem hf
  rw [Finished.gained, hfs fs₁ f fs₂ heq, hcount, List.drop_left, slice_zero]

theorem flatMap_filter_of_nil {β : Type} (p : β → Bool) (g : β → List α) (l : List β)
    (h : ∀ b ∈ l, p b = false → g b = []) : (l.filter p).flatMap g = l.flatMap g := by
  induction l with
  | nil => rfl
  | cons b l ih =>
    have hl := ih fun c hc => h c (List.mem_cons_of_mem _ hc)
    cases hb : p b with
    | true => rw [List.filter_cons_of_pos hb, List.flatMap_cons, List.flatMap_cons, hl]
    | false =>
      have hnil := h b List.mem_cons_self hb
      rw [List.filter_cons_of_neg (by simp [hb]), List.flatMap_cons, hnil, hl, List.nil_append]

/-- The accounts hold whatever the read in flight is up to. -/
theorem Session.Inv.accounts {s : Session O} (h : s.Inv) :
    ∃ coming, Accounts O (amounts s.finished) coming (s.world.self.op : End α) := by
  have hdriven := h.driven
  rw [World.Driven] at hdriven
  cases hstate : s.world.self.state with
  | start buf =>
    rw [hstate] at hdriven
    exact ⟨0, hdriven.1.1⟩
  | inProgress state =>
    rw [hstate] at hdriven
    cases hcode : s.world.self.completionStatus.code with
    | none =>
      rw [hcode] at hdriven
      exact ⟨0, hdriven.accounts⟩
    | some code =>
      rw [hcode] at hdriven
      exact ToLookAt.accounts (e := s.world.self.op) hdriven
  | done => exact ⟨0, (h.idle hstate).1⟩

theorem Session.Inv.readsAppend {s : Session O} (h : s.Inv) : ReadsAppend s where
  appends := h.consecutive
  reported := h.accounts.elim fun _ haccounts => haccounts.reported
  lifted := h.accounts.elim fun _ haccounts => haccounts.lifted
  received hdone := (h.idle hdone).1.received
  keeps hkept := by
    rw [Session.KeepsAll, ← Accounts.gained h.consecutive]
    exact flatMap_filter_of_nil _ _ _ fun f hf hnot => gained_nil h.consecutive hf (hkept f hf hnot)

/-! ## `collect` -/

variable (O) in
/-- `RawStreamReader::collect`: reads into one `Vec` until the writer is gone. -/
structure Collect where
  session : Session O
  /-- The contents of what is returned. -/
  returned : Option (List α)

inductive CollectEvent where
  /-- The read that is awaited is polled, or woken. -/
  | awaiting (e : Event)
  /-- The loop goes on with what the read returned. The next read would be pinned
  at `addr`, and a full `Vec` would be moved to `block` with that capacity. -/
  | resume (addr : Ptr) (block capacity : Nat)

variable (O) in
/-- `Vec::reserve`, where there is no spare capacity. -/
def Buffer.reserve (m : Memory Block) (buf : Buffer) (block capacity : Nat) : Memory Block × Buffer :=
  if buf.length = buf.capacity then
    (m.writeEach ⟨.vec block, 0⟩ O.rustSize (fun i => m.read (buf.at O i) O.rustSize) buf.length,
      ⟨block, buf.length, capacity⟩)
  else (m, buf)

theorem Buffer.reserve_items (m : Memory Block) (buf : Buffer) (block capacity : Nat) :
    (buf.reserve O m block capacity).2.items O (buf.reserve O m block capacity).1 = buf.items O m := by
  rw [Buffer.reserve]
  split
  · have hlength : ∀ i, (m.read (buf.at O i) O.rustSize).length = O.rustSize := fun i => by
      simp [Memory.read]
    refine List.map_congr_left fun i hi => congrArg O.load ?_
    have hmoved := Memory.read_writeEach (m := m) (p := ⟨Block.vec block, 0⟩) hlength (List.mem_range.mp hi)
    have hplace : Buffer.at O ⟨block, buf.length, capacity⟩ i =
        (⟨Block.vec block, 0⟩ : Pointer Block).add (i * O.rustSize) := by
      rw [Pointer.add, Nat.zero_add]
      rfl
    rw [hplace]
    exact hmoved
  · rfl

namespace Collect

variable (c : Collect O)

def resumed (f : Finished α) (addr : Ptr) (block capacity : Nat) (s : Session O) :
    Except Panic (Collect O) :=
  match f.result with
  | .complete _ =>
    let (memory, buf) := f.buf.reserve O (End.memory (α := α) s.world.self.op) block capacity
    (fun s => { c with session := s }) <$> s.exec (.next memory buf addr)
  | .dropped => .ok { session := s, returned := some f.after }
  | .cancelled => .error (.own "internal error: entered unreachable code")

def exec : CollectEvent → Except Panic (Collect O)
  | .awaiting e => (fun s => { c with session := s }) <$> c.session.exec (.op e)
  | .resume addr block capacity =>
    match c.session.finished.getLast? with
    | some f => c.session.exec (.op (.drop none 0)) >>= c.resumed f addr block capacity
    | none => .error (.own "internal error: entered unreachable code")

/-- The read is awaited, not cancelled, and once it has returned the loop goes on. -/
def allowed : CollectEvent → Prop
  | .awaiting e => c.returned = none ∧ (sessions O).allowed c.session (.op e) ∧
      match e with
      | .cancel .. | .drop .. => False
      | _ => True
  | .resume addr _ capacity => c.returned = none ∧ c.session.world.self.isDone = true ∧
      c.session.world.tasks.Nowhere addr ∧ ∀ f ∈ c.session.finished.getLast?, f.buf.length < capacity

end Collect

variable (O) in
def collects : System (Collect O) CollectEvent Panic where
  init c := (sessions O).init c.session ∧ c.returned = none ∧ c.session.before = []
  allowed c e := c.allowed e
  exec c e := c.exec e

/-- The one `Vec` of a `collect` holds all that was transferred. -/
structure Collect.Inv (c : Collect O) : Prop where
  session : c.session.Inv
  reading : c.session.world.self.state ≠ .done → c.session.before = slice O 0 (total c.session.finished)
  returned : ∀ items ∈ c.returned, c.session.world.self.state = .done ∧
    items = slice O 0 (total c.session.finished) ∧ Gone (α := α) (End.log c.session.world.self.op)
  last : c.session.world.self.state = .done → ∃ f ∈ c.session.finished.getLast?,
    f.after = slice O 0 (total c.session.finished) ∧
      f.buf.items O (End.memory (α := α) c.session.world.self.op) = f.after ∧
      (f.result = .dropped → Gone (α := α) (End.log c.session.world.self.op))

/-- A read that returned, of a `Vec` that held everything. -/
theorem Collect.Inv.finish {c : Collect O} {w : World (readOp O)} {r : StreamResult × Buffer}
    (h : c.Inv) (hnone : c.returned = none) (hlive : c.session.world.self.state ≠ .done)
    (hdone : w.self.state = .done)
    (hr : Appended O (amounts c.session.finished) c.session.before w.self.op r) :
    Collect.Inv { c with session := c.session.finish w r true } where
  session := h.session.returned hdone hr true
  reading hne := absurd hdone hne
  returned := by
    intro items hitems
    cases hnone.symm.trans hitems
  last _ := by
    have htotal : total (c.session.finish w r true).finished = total c.session.finished + r.1.count :=
      (total_append _ _).trans (by simp [total, amounts])
    refine ⟨_, List.getLast?_concat, ?_, rfl, hr.gone⟩
    rw [htotal, slice_add, Nat.zero_add]
    exact hr.items.trans (congrArg (· ++ _) (h.reading hlive))

theorem Collect.Inv.polled {c : Collect O} {r : Poll (StreamResult × Buffer) × World (readOp O)}
    (h : c.Inv) (hnone : c.returned = none) (hlive : c.session.world.self.state ≠ .done)
    (hdropped : c.session.world.dropped = false)
    (hr : World.ReturnedOrBlocked (readReturns O (amounts c.session.finished) c.session.before)
      c.session.world.dropped r) :
    Collect.Inv { c with session := c.session.polled r } := by
  have hsession := h.session.polled hdropped hr
  obtain ⟨r, w⟩ := r
  cases r with
  | ready result => exact h.finish hnone hlive hr.1 hr.2
  | pending =>
    obtain ⟨state, hstate, -⟩ := hr
    have hstate' : w.self.state = .inProgress state := hstate
    refine ⟨hsession, fun _ => h.reading hlive, ?_, fun hdone => ?_⟩
    · intro items hitems
      cases hnone.symm.trans hitems
    · have hdone' : w.self.state = .done := hdone
      cases hstate'.symm.trans hdone'

/-- The loop goes on, or returns. -/
theorem Collect.Inv.resumed {c : Collect O} (h : c.Inv) (hnone : c.returned = none) {f : Finished α}
    (hf : f ∈ c.session.finished.getLast?) (hdone : c.session.world.self.state = .done)
    (addr : Ptr) (block capacity : Nat) :
    Ends (fun _ => True) (fun c' : Collect O => c'.Inv)
      (c.resumed f addr block capacity { c.session with world := c.session.world.dropFields }) := by
  obtain ⟨f', hf', hafter, hitems, hgone⟩ := h.last hdone
  obtain rfl : f' = f := Option.some.inj (hf'.symm.trans hf)
  obtain ⟨haccounts, htarget⟩ := h.session.idle hdone
  rw [Collect.resumed]
  cases hresult : f'.result with
  | complete amt =>
    refine ⟨⟨h.session.consecutive,
      ⟨⟨⟨haccounts.received, haccounts.lifted, haccounts.reported⟩, htarget, rfl⟩, rfl⟩, nofun, nofun⟩,
      fun _ => ?_, fun items hmem => ?_, nofun⟩
    · exact (Buffer.reserve_items _ _ _ _).trans (hitems.trans hafter)
    · cases hnone.symm.trans hmem
  | dropped =>
    refine ⟨⟨h.session.consecutive, World.Driven.of_done hdone, fun _ => h.session.idle hdone, fun _ => hdone⟩,
      fun hne => absurd hdone hne, ?_, fun _ => ⟨f', hf', hafter, hitems, hgone⟩⟩
    intro items hmem
    obtain rfl : f'.after = items := Option.some.inj hmem
    exact ⟨hdone, hafter, hgone hresult⟩
  | cancelled => exact trivial

theorem Collect.Inv.exec {c : Collect O} (h : c.Inv) {e : CollectEvent} (hallowed : c.allowed e) :
    Ends (fun _ => True) (fun c' : Collect O => c'.Inv) (c.exec e) := by
  cases e with
  | resume addr block capacity =>
    have hdone := isDone_iff.mp hallowed.2.1
    rw [Collect.exec]
    split
    · rename_i f hf
      have hdrop : c.session.exec (.op (.drop none 0)) =
          .ok { c.session with world := c.session.world.dropFields } := if_pos hallowed.2.1
      rw [hdrop]
      exact h.resumed hallowed.1 hf hdone addr block capacity
    · exact trivial
  | awaiting e =>
    obtain ⟨hnone, hop, hkind⟩ := hallowed
    cases e with
    | poll waker task answer =>
      -- only a read that is not over is polled
      have hlive : c.session.world.self.state ≠ .done := by
        intro hdone
        have hnot : c.session.world.self.isDone = false := hop.1.1.2.1
        rw [isDone_iff.mpr hdone] at hnot
        cases hnot
      exact Ends.map (Ends.map
        ((World.pollComplete_returns _ answer h.session.driven).mono fun r hr =>
          h.polled hnone hlive hop.1.1.1 hr))
    | deliver t waitable code =>
      refine Ends.map (Ends.map ?_)
      have hsession := h.session.delivered t waitable code hop.2
      have hkeeps := World.deliver_keeps (w := c.session.reported t waitable code) t waitable code
      refine ((hsession.and hkeeps).mono fun w hw => ?_).mono_error fun _ _ => trivial
      obtain ⟨hinv, hop', hstate, -, -⟩ := hw
      -- the event is for the read in flight, or for another task or waitable
      by_cases hours : c.session.Ours t waitable
      · obtain ⟨state, hprogress, -⟩ := h.session.reading (hop.2 hours)
        have hstate' : w.self.state = .inProgress state := by
          rw [hstate, Session.reported, if_pos hours]
          exact hprogress
        refine ⟨hinv, fun _ => h.reading fun hdone => ?_, ?_, fun hdone => ?_⟩
        · cases hprogress.symm.trans hdone
        · intro items hmem
          cases hnone.symm.trans hmem
        · cases hstate'.symm.trans hdone
      · rw [Session.reported, if_neg hours] at hop' hstate
        refine ⟨hinv, fun hne => h.reading fun hdone => hne (hstate.trans hdone), ?_, fun hdone => ?_⟩
        · intro items hmem
          cases hnone.symm.trans hmem
        · obtain ⟨f, hf, hlast⟩ := h.last (hstate.symm.trans hdone)
          refine ⟨f, hf, ?_⟩
          change _ ∧ f.buf.items O (End.memory (α := α) w.self.op) = f.after ∧
            (f.result = .dropped → Gone (α := α) (End.log w.self.op))
          rw [hop']
          exact hlast
    | other ts =>
      exact ⟨⟨h.session.consecutive, h.session.driven, h.session.idle, h.session.dropped⟩, h.reading,
        h.returned, h.last⟩
    | cancel current answer => exact hkind.elim
    | drop current answer => exact hkind.elim

theorem Collect.Inv.of_reachable {c : Collect O} (h : (collects O).Reachable c) : c.Inv := by
  refine System.Reachable.invariant (I := Collect.Inv (O := O)) (fun c hc => ?_)
    (fun _ e _ hinv hallowed hexec => (hinv.exec hallowed).of_ok hexec) h
  obtain ⟨hsession, hnone, hbefore⟩ := hc
  obtain ⟨buf, hstate, -⟩ := hsession.2.2.2.1
  have hfinished := hsession.2.2.2.2
  refine ⟨Session.Inv.initial hsession, fun _ => ?_, ?_, fun hdone => ?_⟩
  · rw [hbefore, hfinished]
    rfl
  · intro items hmem
    cases hnone.symm.trans hmem
  · cases hstate.symm.trans hdone

/-- What `collect` returns, and that it does. -/
structure CollectsAll (c : Collect O) : Prop where
  /-- All that was transferred until the writer dropped its end. -/
  returned : ∀ items ∈ c.returned, items = slice O 0 (End.received (α := α) c.session.world.self.op) ∧
    Gone (α := α) (End.log c.session.world.self.op)
  /-- A read that reports the end alone is the last. -/
  breaks : c.returned = none → c.session.world.self.state = .done →
    ∀ f ∈ c.session.finished.getLast?, f.result = .dropped → ∀ addr block capacity,
      ∃ c', c.exec (.resume addr block capacity) = .ok c' ∧
        c'.returned = some (slice O 0 (End.received (α := α) c.session.world.self.op))
  /-- Once the end of the stream is known, the next turn of the loop is the last. -/
  ends : c.returned = none → End.done (α := α) c.session.world.self.op = true →
    ∀ buf, c.session.world.self.state = .start buf → ∀ waker task answer addr block capacity,
      ∃ c₁ c₂, c.exec (.awaiting (.poll waker task answer)) = .ok c₁ ∧
        c₁.exec (.resume addr block capacity) = .ok c₂ ∧
        c₂.returned = some (slice O 0 (End.received (α := α) c.session.world.self.op))

theorem Collect.Inv.collectsAll {c : Collect O} (h : c.Inv) : CollectsAll c where
  returned items hitems := by
    obtain ⟨hdone, heq, hgone⟩ := h.returned items hitems
    have hreceived : End.received (α := α) c.session.world.self.op = total c.session.finished :=
      (h.session.idle hdone).1.received
    rw [hreceived]
    exact ⟨heq, hgone⟩
  breaks hnone hdone f hf hresult addr block capacity := by
    obtain ⟨f', hf', hafter, -, -⟩ := h.last hdone
    obtain rfl : f' = f := Option.some.inj (hf'.symm.trans hf)
    have hreceived : End.received (α := α) c.session.world.self.op = total c.session.finished :=
      (h.session.idle hdone).1.received
    have hdrop : c.session.exec (.op (.drop none 0)) =
        .ok { c.session with world := c.session.world.dropFields } := if_pos (isDone_iff.mpr hdone)
    refine ⟨⟨{ c.session with world := c.session.world.dropFields }, some f'.after⟩, ?_, ?_⟩
    · simp only [Collect.exec, Option.mem_def.mp hf, hdrop]
      change c.resumed f' addr block capacity _ = _
      rw [Collect.resumed, hresult]
    · rw [hreceived, ← hafter]
  ends hnone hdone buf hstate waker task answer addr block capacity := by
    -- with the end known, a read is answered at once and without the host
    obtain ⟨w, hpoll⟩ := World.pollComplete_ready hstate
      (readStart_done (O := O) buf answer hdone)
      (update_dropped (buf, none) buf (fun amt => readInto O (buf, none) amt) _) ⟨waker, some task⟩
    have hreturned := (World.pollComplete_returns ⟨waker, some task⟩ answer h.session.driven).of_ok hpoll
    have hpolled : c.exec (.awaiting (.poll waker task answer)) =
        .ok { c with session := c.session.finish w (.dropped, buf) true } := by
      change (fun s : Session O => { c with session := s }) <$> c.session.polled <$>
        c.session.world.pollComplete ⟨waker, some task⟩ answer = _
      rw [hpoll]
      rfl
    have hlive : c.session.world.self.state ≠ .done := fun h => by cases hstate.symm.trans h
    -- so its buffer is what was collected, which is everything received
    have hafter : Buffer.items O (End.memory (α := α) w.self.op) buf =
        slice O 0 (End.received (α := α) c.session.world.self.op) := by
      have hitems : _ = _ := hreturned.2.items
      have hdriven := h.session.driven
      rw [World.Driven, hstate] at hdriven
      have hreceived : End.received (α := α) c.session.world.self.op = total c.session.finished :=
        hdriven.1.1.received
      rw [hreceived, ← h.reading hlive]
      exact hitems.trans (List.append_nil _)
    refine ⟨_, ⟨c.session.finish w.dropFields (.dropped, buf) true, _⟩, hpolled, ?_, congrArg some hafter⟩
    have hlast : (c.session.finish w (.dropped, buf) true).finished.getLast? =
        some ⟨c.session.before, .dropped, buf, buf.items O (End.memory (α := α) w.self.op), true⟩ :=
      List.getLast?_concat
    have hdrop : (c.session.finish w (.dropped, buf) true).exec (.op (.drop none 0)) =
        .ok { c.session.finish w (.dropped, buf) true with world := w.dropFields } :=
      if_pos (isDone_iff.mpr hreturned.1)
    simp only [Collect.exec, hlast, hdrop]
    rfl

end Stream

end Rt

end WitBindgen
