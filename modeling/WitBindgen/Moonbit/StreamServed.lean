import WitBindgen.Moonbit.StreamFlow

/-!
# When a write of a local stream takes nothing

A write of a pipe is answered with zero for want of values, or because an end of the
stream is closed: a read that waits wants at least one value, and so does the buffer
where it has room.
-/

namespace WitBindgen

namespace Moonbit

namespace StreamPipe

namespace State

variable {α : Type} {s s' t : State α}

def Closed (s : State α) : Prop := s.writerClosed = true ∨ s.readerDropped = true

structure Served (s : State α) : Prop where
  readers : ∀ r, s.liveReader r = true → 0 < (s.reader r).max
  writers : ∀ w, s.liveWriter w = true → (s.writer w).value.getD [] ≠ []
  settled : ∀ w < s.writes, (s.writer w).coro = none →
    s.data w = [] ∨ 0 < s.took w ∨ s.Closed ∨ (w, none) ∈ s.results

/-- A step in which no write begins or returns. -/
structure Between (s s' : State α) : Prop where
  results : s'.results = s.results
  writes : s'.writes = s.writes
  data : s'.data = s.data
  closed : s.Closed → s'.Closed
  cleanup : s.cleanup = true → s'.cleanup = true
  served : s'.Served

theorem Between.refl (h : s.Served) : s.Between s := ⟨rfl, rfl, rfl, id, id, h⟩

theorem Between.trans (h : s.Between s') (h' : s'.Between t) : s.Between t :=
  ⟨h'.results.trans h.results, h'.writes.trans h.writes, h'.data.trans h.data,
    fun hc => h'.closed (h.closed hc), fun hc => h'.cleanup (h.cleanup hc), h'.served⟩

theorem Between.foldl {f : State α → Nat → State α} (hf : ∀ t n, s.Between t → t.Between (f t n))
    (ns : List Nat) (h : s.Between t) : s.Between (ns.foldl f t) := by
  induction ns generalizing t with
  | nil => exact h
  | cons n ns ih => exact ih (h.trans (hf t n h))

/-! ## Records -/

theorem Served.wakeReader (h : s.Served) (r : ReadId) (value : Option (List α)) (ended : Bool) :
    s.Between (s.wakeReader r value ended) := by
  rw [State.wakeReader]
  split
  · refine ⟨rfl, rfl, rfl, id, id, ⟨fun r' hr' => ?_, h.writers, h.settled⟩⟩
    by_cases heq : r' = r
    · subst heq
      dsimp only [liveReader] at hr'
      rw [Function.update_self] at hr'
      cases hr'
    · dsimp only [liveReader] at hr' ⊢
      rw [Function.update_of_ne heq] at hr' ⊢
      exact h.readers r' hr'
  · exact .refl h

theorem Served.wakeWriter (h : s.Served) {w : WriteId} {n : Nat} (hn : 0 < n ∨ s.data w = [] ∨ s.Closed) :
    s.Between (s.wakeWriter w n) := by
  rw [State.wakeWriter]
  split
  · refine ⟨rfl, rfl, rfl, id, id, ⟨h.readers, fun w' hw' => ?_, fun w' hlt hw' => ?_⟩⟩
    · by_cases heq : w' = w
      · subst heq
        dsimp only [liveWriter] at hw'
        rw [Function.update_self] at hw'
        cases hw'
      · dsimp only [liveWriter] at hw' ⊢
        rw [Function.update_of_ne heq] at hw' ⊢
        exact h.writers w' hw'
    · by_cases heq : w' = w
      · subst heq
        dsimp only
        rw [Function.update_self]
        rcases hn with hn | hn | hn
        · exact Or.inr (Or.inl hn)
        · exact Or.inl hn
        · exact Or.inr (Or.inr (Or.inl hn))
      · dsimp only at hw' ⊢
        rw [Function.update_of_ne heq] at hw' ⊢
        exact h.settled w' hlt hw'
  · rename_i hnone
    refine ⟨rfl, rfl, rfl, id, id, ⟨h.readers, fun w' hw' => ?_, fun w' hlt hw' => ?_⟩⟩
    · by_cases heq : w' = w
      · subst heq
        dsimp only [liveWriter] at hw'
        rw [Function.update_self, Option.isSome_none, Bool.and_false] at hw'
        cases hw'
      · dsimp only [liveWriter] at hw' ⊢
        rw [Function.update_of_ne heq] at hw' ⊢
        exact h.writers w' hw'
    · by_cases heq : w' = w
      · subst heq
        exact h.settled w' hlt hnone
      · dsimp only at hw'
        rw [Function.update_of_ne heq] at hw'
        exact h.settled w' hlt hw'

theorem Served.endReaders (h : s.Served) : s.Between s.endReaders := by
  have hfold := Between.foldl (s := s) (f := fun s r => s.wakeReader r none true)
    (fun _ r ht => ht.served.wakeReader r none true) s.readers (.refl h)
  exact hfold.trans ⟨rfl, rfl, rfl, id, id, ⟨hfold.served.readers, hfold.served.writers, hfold.served.settled⟩⟩

/-! ## The ends are closed -/

theorem Served.close (h : s.Served) {writerClosed readerDropped : Bool}
    (hclosed : writerClosed = true ∨ readerDropped = true) (cleaned discarded removed : List α)
    (head : Option (List α)) (headPos : Nat) (chunks : List (List α)) (buffered : Nat) :
    s.Between { s with writerClosed, readerDropped, cleaned, discarded, removed, head, headPos, chunks, buffered } :=
  ⟨rfl, rfl, rfl, fun _ => hclosed, id, ⟨h.readers, h.writers, fun _ _ _ => Or.inr (Or.inr (Or.inl hclosed))⟩⟩

theorem Served.dropWriter (h : s.Served) (hclosed : s.Closed) (cleanup : Bool) (w : WriteId) :
    s.Between (dropWriter cleanup s w) := by
  rw [State.dropWriter.eq_def]
  split
  · rename_i data hdata
    have hcleaned : s.Between { s with
        cleaned := s.cleaned ++ data
        reclaimed := s.reclaimed ++ [(w, data)] : State α } :=
      ⟨rfl, rfl, rfl, id, id, ⟨h.readers, h.writers, h.settled⟩⟩
    exact hcleaned.trans (hcleaned.served.wakeWriter (Or.inr (Or.inr hclosed)))
  · exact h.wakeWriter (Or.inr (Or.inr hclosed))

theorem Served.dropReader (h : s.Served) : s.Between s.dropReader := by
  rw [State.dropReader]
  split
  · exact .refl h
  · have hclear : s.Between s.clear := h.close (Or.inr rfl) _ _ _ none 0 [] 0
    have hend := hclear.trans hclear.served.endReaders
    have hclosed : s.clear.endReaders.Closed := hclear.served.endReaders.closed (Or.inr rfl)
    dsimp only
    have hfold := Between.foldl (s := s.clear.endReaders) (f := State.dropWriter s.clear.endReaders.cleanup)
      (fun _ w ht => ht.served.dropWriter (ht.closed hclosed) _ w) s.clear.endReaders.writers (.refl hend.served)
    exact (hend.trans hfold).trans
      ⟨rfl, rfl, rfl, id, id, ⟨hfold.served.readers, hfold.served.writers, hfold.served.settled⟩⟩

theorem Served.rejectReader (h : s.Served) : s.Between s.rejectReader := by
  have hcleanup : s.Between { s with cleanup := true } :=
    ⟨rfl, rfl, rfl, id, fun _ => rfl, ⟨h.readers, h.writers, h.settled⟩⟩
  exact hcleanup.trans hcleanup.served.dropReader

theorem Served.closeWriter (h : s.Served) : s.Between s.closeWriter := by
  rw [State.closeWriter]
  split
  · exact .refl h
  · dsimp only
    have hclose : s.Between { s with writerClosed := true } := h.close (Or.inl rfl) _ _ _ _ _ _ _
    have hfold := Between.foldl (s := { s with writerClosed := true }) (f := fun s w => s.wakeWriter w 0)
      (fun _ w ht => ht.served.wakeWriter (Or.inr (Or.inr (ht.closed (Or.inl rfl))))) s.writers
      (.refl hclose.served)
    have hall := (hclose.trans hfold).trans (t := { (s.writers.foldl (fun s w => s.wakeWriter w 0)
        ({ s with writerClosed := true } : State α)) with writers := [] })
      ⟨rfl, rfl, rfl, id, id, ⟨hfold.served.readers, hfold.served.writers, hfold.served.settled⟩⟩
    split
    · exact hall.trans hall.served.endReaders
    · exact hall

/-! ## Values move -/

theorem take_pos {xs : List α} {n : Nat} (hn : 0 < n) (hxs : xs ≠ []) : 0 < (xs.take n).length := by
  have hlen := List.length_pos_iff.mpr hxs
  rw [List.length_take]
  omega

theorem Served.fillFrom : ∀ (ws : List WriteId) {s : State α}, s.Served → s.Between (s.fillFrom ws)
  | [], s, h => by
    rw [State.fillFrom]
    exact ⟨rfl, rfl, rfl, id, id, ⟨h.readers, h.writers, h.settled⟩⟩
  | w :: ws, s, h => by
    rw [State.fillFrom]
    split
    · exact ⟨rfl, rfl, rfl, id, id, ⟨h.readers, h.writers, h.settled⟩⟩
    · rename_i hroom
      split
      · rename_i hlive
        dsimp only
        have hpos := take_pos (n := s.capacity - s.buffered) (by omega) (h.writers w hlive)
        generalize List.take (s.capacity - s.buffered) ((s.writer w).value.getD []) = chunk at hpos ⊢
        have hpush : s.Between ((s.push chunk).accept w chunk) :=
          ⟨rfl, rfl, rfl, id, id, ⟨h.readers, h.writers, h.settled⟩⟩
        have hwake := hpush.trans (hpush.served.wakeWriter (w := w) (Or.inl hpos))
        exact hwake.trans (Served.fillFrom ws hwake.served)
      · exact Served.fillFrom ws h

theorem Served.fill (h : s.Served) : s.Between s.fill := by
  rw [State.fill]
  split
  · exact .refl h
  · exact h.fillFrom s.writers

theorem Served.nextHead (h : s.Served) : s.Between s.nextHead := by
  rw [State.nextHead]
  split
  · exact ⟨rfl, rfl, rfl, id, id, ⟨h.readers, h.writers, h.settled⟩⟩
  · exact .refl h

theorem Served.returnRead (h : s.Served) (chunk : List α) : s.Between (s.returnRead chunk) :=
  ⟨rfl, rfl, rfl, id, id, ⟨h.readers, h.writers, h.settled⟩⟩

theorem Served.readHead (h : s.Served) (head : List α) (count : Nat) : s.Between (s.readHead head count) := by
  rw [State.readHead]
  generalize (head.drop s.headPos).take count = chunk
  have hread : s.Between (State.returnRead { s with
      head := if head.length ≤ s.headPos + chunk.length then none else some head
      headPos := if head.length ≤ s.headPos + chunk.length then 0 else s.headPos + chunk.length
      buffered := s.buffered - chunk.length } chunk) :=
    ⟨rfl, rfl, rfl, id, id, ⟨h.readers, h.writers, h.settled⟩⟩
  exact hread.trans hread.served.fill

theorem Served.setReader (h : s.Served) {r : ReadId} {x : Reader α} (hx : x.coro = none ∨ 0 < x.max)
    (reads : ReadId) (readers : List ReadId) (sched : Scheduler Waits) :
    s.Between { s with reads, readers, sched, reader := Function.update s.reader r x } := by
  refine ⟨rfl, rfl, rfl, id, id, ⟨fun r' hr' => ?_, h.writers, h.settled⟩⟩
  by_cases heq : r' = r
  · subst heq
    dsimp only [liveReader] at hr' ⊢
    rw [Function.update_self] at hr' ⊢
    rcases hx with hx | hx
    · rw [hx] at hr'
      exact nomatch hr'
    · exact hx
  · dsimp only [liveReader] at hr' ⊢
    rw [Function.update_of_ne heq] at hr' ⊢
    exact h.readers r' hr'

theorem Served.waitRead (h : s.Served) (c : CoroId) {count : Nat} (hcount : 0 < count) :
    s.Between (s.waitRead c count) := by
  rw [State.waitRead]
  dsimp only
  split
  · exact h.setReader (Or.inl rfl) _ _ _
  · exact h.setReader (Or.inr hcount) _ _ _

theorem Served.readLoop (h : s.Served) (c : CoroId) {count : Nat} (hcount : 0 < count) :
    s.Between (s.readLoop c count) := by
  rw [State.readLoop]
  split
  · exact .refl h
  · have hnext := h.nextHead
    dsimp only
    split
    · rename_i head _
      exact hnext.trans (hnext.served.readHead head count)
    · split
      · rename_i w rest htake
        have hpos := take_pos hcount (hnext.served.writers w (takeLive_some htake).1)
        generalize List.take count ((s.nextHead.writer w).value.getD []) = chunk at hpos ⊢
        have haccept : s.Between (accept { s.nextHead with writers := rest } w chunk) :=
          hnext.trans ⟨rfl, rfl, rfl, id, id, ⟨hnext.served.readers, hnext.served.writers, hnext.served.settled⟩⟩
        have hwake := haccept.trans (haccept.served.wakeWriter (w := w) (Or.inl hpos))
        exact hwake.trans (hwake.served.returnRead chunk)
      · rename_i rest _
        have hrest : s.Between { s.nextHead with writers := rest } :=
          hnext.trans ⟨rfl, rfl, rfl, id, id, ⟨hnext.served.readers, hnext.served.writers, hnext.served.settled⟩⟩
        split
        · exact hrest
        · exact hrest.trans (hrest.served.waitRead c hcount)

theorem Served.read (h : s.Served) (c : CoroId) (count : Nat) : s.Between (s.read c count) := by
  rw [State.read]
  split
  · exact .refl h
  · exact h.readLoop c (by omega)

/-! ## Writing -/

/-- A write begins, and returns `r` unless it waits. -/
structure Begins (s s' : State α) (c : CoroId) (data : List α) : Prop where
  writes : s'.writes = s.writes + 1
  data : s'.data = Function.update s.data s.writes data
  closed : s'.Closed ↔ s.Closed
  cleanup : s'.cleanup = s.cleanup
  served : s'.Served
  /-- It waits, or has returned and its coroutine goes on. -/
  results : s'.results = s.results ∨ ∃ r, s'.results = s.results ++ [(s.writes, r)] ∧
    s'.sched.currCoro = s.sched.currCoro ∧ s'.sched.coros c = s.sched.coros c

theorem Served.returnWrite (h : s.Served) {data : List α} {n : Nat} (hn : data = [] ∨ 0 < n ∨ s.Closed) :
    (s.returnWrite data n).Served := by
  refine ⟨h.readers, h.writers, fun w hw hcoro => ?_⟩
  dsimp only [State.returnWrite] at hw hcoro ⊢
  by_cases heq : w = s.writes
  · subst heq
    rw [Function.update_self, Function.update_self]
    exact hn.imp id (Or.imp id Or.inl)
  · rw [Function.update_of_ne heq, Function.update_of_ne heq]
    exact (h.settled w (Nat.lt_of_le_of_ne (Nat.le_of_lt_succ hw) heq) hcoro).imp id (Or.imp id (Or.imp id (List.mem_append_left _)))

theorem Served.waitWrite (h : s.Served) (c : CoroId) {data : List α} (hdata : data ≠ []) :
    s.Begins (s.waitWrite c data) c data := by
  rw [State.waitWrite]
  dsimp only
  split
  · refine ⟨rfl, rfl, .rfl, rfl, ⟨h.readers, fun w hw => ?_, fun w hlt hw => ?_⟩, Or.inr ⟨none, rfl, rfl, rfl⟩⟩
    · by_cases heq : w = s.writes
      · subst heq
        dsimp only [liveWriter] at hw
        rw [Function.update_self] at hw
        cases hw
      · dsimp only [liveWriter] at hw ⊢
        rw [Function.update_of_ne heq] at hw ⊢
        exact h.writers w hw
    · dsimp only at hlt hw ⊢
      by_cases heq : w = s.writes
      · subst heq
        exact Or.inr (Or.inr (Or.inr (List.mem_append_right _ (List.mem_singleton_self _))))
      · rw [Function.update_of_ne heq] at hw
        rw [Function.update_of_ne heq, Function.update_of_ne heq]
        exact (h.settled w (Nat.lt_of_le_of_ne (Nat.le_of_lt_succ hlt) heq) hw).imp id (Or.imp id (Or.imp id (List.mem_append_left _)))
  · refine ⟨rfl, rfl, .rfl, rfl, ⟨h.readers, fun w hw => ?_, fun w hlt hw => ?_⟩, Or.inl rfl⟩
    · by_cases heq : w = s.writes
      · subst heq
        dsimp only
        rw [Function.update_self]
        exact hdata
      · dsimp only [liveWriter] at hw ⊢
        rw [Function.update_of_ne heq] at hw ⊢
        exact h.writers w hw
    · dsimp only at hlt hw ⊢
      by_cases heq : w = s.writes
      · subst heq
        rw [Function.update_self] at hw
        cases hw
      · rw [Function.update_of_ne heq] at hw
        rw [Function.update_of_ne heq, Function.update_of_ne heq]
        exact h.settled w (Nat.lt_of_le_of_ne (Nat.le_of_lt_succ hlt) heq) hw

theorem Served.write (h : s.Served) (hinv : s.Inv) {c : CoroId} (hcurr : s.sched.currCoro = some c)
    (data : List α) : s.Begins (s.write c data) c data := by
  have hback : ∀ {t : State α} {n : Nat}, t.sched.currCoro = s.sched.currCoro ∧ t.sched.coros c = s.sched.coros c →
      t.results = s.results → (t.returnWrite data n).results = s.results ∨
        ∃ r, (t.returnWrite data n).results = s.results ++ [(t.writes, r)] ∧
          (t.returnWrite data n).sched.currCoro = s.sched.currCoro ∧
            (t.returnWrite data n).sched.coros c = s.sched.coros c := fun {t} {n} hsched hres =>
    Or.inr ⟨some n, by rw [State.returnWrite, hres], hsched⟩
  rw [State.write]
  split
  · rename_i hclosed
    simp only [Bool.or_eq_true, List.isEmpty_iff] at hclosed
    have hnothing : data = [] ∨ 0 < 0 ∨ s.Closed := by
      rcases hclosed with (hdata | hclosed) | hclosed
      · exact Or.inl hdata
      · exact Or.inr (Or.inr (Or.inl hclosed))
      · exact Or.inr (Or.inr (Or.inr hclosed))
    exact ⟨rfl, rfl, .rfl, rfl, h.returnWrite hnothing, hback ⟨rfl, rfl⟩ rfl⟩
  · rename_i hopen
    simp only [Bool.or_eq_true, List.isEmpty_iff, not_or] at hopen
    obtain ⟨⟨hdata, -⟩, -⟩ := hopen
    split
    · rename_i r rest htake
      obtain ⟨hlive, -⟩ := takeLive_some htake
      obtain ⟨d, hd⟩ := (s.liveReader_iff r).mp hlive
      have hne : c ≠ d := by
        rintro rfl
        have hstate := (hinv.reads.live r c hd).1
        rw [(hinv.sched.running c).mpr hcurr] at hstate
        cases hstate
      have hpos := take_pos (h.readers r hlive) hdata
      dsimp only
      generalize data.take (s.reader r).max = chunk at hpos ⊢
      have hrest : s.Between { s with readers := rest } :=
        ⟨rfl, rfl, rfl, id, id, ⟨h.readers, h.writers, h.settled⟩⟩
      have hwake := hrest.trans (hrest.served.wakeReader r (some chunk) false)
      rw [wakeReader_live (s := { s with readers := rest }) hd] at hwake ⊢
      refine ⟨rfl, rfl, .rfl, rfl, ?_, hback ⟨s.sched.wake_currCoro, ?_⟩ rfl⟩
      · refine Served.returnWrite ?_ (Or.inr (Or.inl hpos))
        exact ⟨hwake.served.readers, hwake.served.writers, hwake.served.settled⟩
      · show (s.sched.wake d).coros c = s.sched.coros c
        rw [Scheduler.wake_coros, Function.update_of_ne hne]
    · rename_i rest _
      dsimp only
      split
      · rename_i hroom
        have hpos := take_pos (n := s.capacity - s.buffered) (by omega) hdata
        generalize data.take (s.capacity - s.buffered) = chunk at hpos ⊢
        refine ⟨rfl, rfl, .rfl, rfl, ?_, hback ⟨rfl, rfl⟩ rfl⟩
        refine Served.returnWrite ?_ (Or.inr (Or.inl hpos))
        exact ⟨h.readers, h.writers, h.settled⟩
      · have hwait := Served.waitWrite (s := { s with readers := rest }) ⟨h.readers, h.writers, h.settled⟩ c hdata
        exact ⟨hwait.writes, hwait.data, hwait.closed, hwait.cleanup, hwait.served, hwait.results⟩

/-! ## Going on -/

/-- A write that waited returns. -/
structure Returns (s s' : State α) (w : WriteId) : Prop where
  writes : s'.writes = s.writes
  data : s'.data = s.data
  closed : s'.Closed ↔ s.Closed
  cleanup : s'.cleanup = s.cleanup
  served : s'.Served
  results : ∃ r, s'.results = s.results ++ [(w, r)]

theorem Served.writeResumed (h : s.Served) (w : WriteId) (raised : Bool) :
    s.Returns (s.writeResumed w raised) w := by
  rw [State.writeResumed]
  dsimp only
  refine ⟨rfl, rfl, .rfl, rfl, ⟨h.readers, fun w' hw' => ?_, fun w' hlt hw' => ?_⟩, _, rfl⟩
  · by_cases heq : w' = w
    · subst heq
      dsimp only [liveWriter] at hw'
      rw [Function.update_self, Option.isSome_none, Bool.and_false] at hw'
      cases hw'
    · dsimp only [liveWriter] at hw' ⊢
      rw [Function.update_of_ne heq] at hw' ⊢
      exact h.writers w' hw'
  · dsimp only at hw' ⊢
    by_cases heq : w' = w
    · subst heq
      rw [Function.update_self] at hw'
      split at hw'
      · rename_i hraised
        refine Or.inr (Or.inr (Or.inr (List.mem_append_right _ ?_)))
        rw [hraised]
        exact List.mem_singleton_self _
      · exact (h.settled w' hlt hw').imp id (Or.imp id (Or.imp id (List.mem_append_left _)))
    · rw [Function.update_of_ne heq] at hw'
      exact (h.settled w' hlt hw').imp id (Or.imp id (Or.imp id (List.mem_append_left _)))

theorem Served.withSched (h : s.Served) (sched : Scheduler Waits) : s.Between { s with sched := sched } :=
  ⟨rfl, rfl, rfl, id, id, ⟨h.readers, h.writers, h.settled⟩⟩

theorem Served.readResumed (h : s.Served) (c : CoroId) {r : ReadId} {raised : Bool}
    (hend : raised = false → (s.reader r).value = none → (s.reader r).ended = true) :
    s.Between (s.readResumed c r raised) := by
  have hraise : s.Between (if raised then
      { s with reader := Function.update s.reader r { s.reader r with coro := none } } else s) := by
    split
    · exact h.setReader (Or.inl rfl) _ _ _
    · exact .refl h
  have hreader : raised = false → (if raised then
      { s with reader := Function.update s.reader r { s.reader r with coro := none } } else s : State α) = s := by
    rintro rfl
    rfl
  rw [State.readResumed]
  dsimp only
  generalize (if raised then _ else s : State α) = s' at hraise hreader ⊢
  split
  · exact hraise.trans ⟨rfl, rfl, rfl, id, id,
      ⟨hraise.served.readers, hraise.served.writers, hraise.served.settled⟩⟩
  · rename_i hvalue
    rw [if_pos]
    · exact hraise
    · cases raised with
      | true => rw [Bool.or_true]
      | false =>
        rw [hreader rfl] at hvalue ⊢
        rw [hend rfl hvalue, Bool.true_or]

theorem Served.resume_write (h : s.Served) {lane : Lane} {c : CoroId} {rest : List CoroId} {w : WriteId}
    (hqueue : s.sched.runLater lane = c :: rest) (hstate : (s.sched.coros c).state = .suspend (.write w)) :
    s.Returns (s.resume lane) w := by
  have hsched := h.withSched (s.sched.reschedule lane)
  rw [State.resume, hqueue]
  dsimp only
  rw [hstate]
  have hback := hsched.served.writeResumed w ((s.sched.reschedule lane).coros c).interrupted
  exact ⟨hback.writes, hback.data, hback.closed, hback.cleanup, hback.served, hback.results⟩

theorem Served.resume_other (h : s.Served) (hinv : s.Inv) {lane : Lane}
    (hother : ∀ c rest w, s.sched.runLater lane = c :: rest → (s.sched.coros c).state ≠ .suspend (.write w)) :
    s.Between (s.resume lane) := by
  rw [State.resume]
  split
  · exact .refl h
  · rename_i c rest hqueue
    have hready : (s.sched.coros c).ready = true :=
      ((hinv.sched.mem_iff lane c).mp (by rw [hqueue]; exact List.mem_cons_self ..)).1
    have hcoro := s.sched.reschedule_first hqueue
    have hsched := h.withSched (s.sched.reschedule lane)
    dsimp only
    split
    · rename_i r hc
      refine hsched.trans (hsched.served.readResumed c fun hraised hvalue => ?_)
      rcases (hinv.reads.waits c r hc).2.2 with hlive | ⟨-, -, ⟨-, hended⟩ | ⟨v, hv, -⟩⟩
      · have hcancelled := (hinv.reads.live r c hlive).2.2 hready
        have hsame : ((s.sched.reschedule lane).coros c).interrupted = (s.sched.coros c).interrupted := by
          rw [hcoro]
          rfl
        exact absurd (hsame.symm.trans hraised) (by rw [hcancelled]; simp)
      · exact hended
      · exact absurd (hvalue.symm.trans hv) (by simp)
    · rename_i w hc
      exact absurd hc (hother c rest w hqueue)
    · exact hsched.trans (hsched.served.withSched _)
    · exact hsched

theorem Served.running (h : s.Served) (f : CoroId → Scheduler Waits) : s.Between (s.running f) := by
  rw [State.running]
  split
  · exact h.withSched _
  · exact .refl h

/-- Everything but a write, and a turn of the scheduler in which one may return. -/
theorem Served.exec (h : s.Served) {e : Event α} (hwrite : ∀ data, e ≠ .write data)
    (hresume : ∀ lane, e ≠ .resume lane) (hrun : s.exec e = .ok s') : s.Between s' := by
  cases e with
  | write data => exact absurd rfl (hwrite data)
  | resume lane => exact absurd rfl (hresume lane)
  | spawn lane => cases hrun; exact h.withSched _
  | read count =>
    rw [State.exec] at hrun
    split at hrun
    · cases hrun; exact h.read _ count
    · cases hrun
  | close => cases hrun; exact h.closeWriter
  | drop => cases hrun; exact h.dropReader
  | reject => cases hrun; exact h.rejectReader
  | cancel c => cases hrun; exact h.withSched _
  | shield shielded => cases hrun; exact h.running _
  | park => cases hrun; exact h.running _
  | unpark c => cases hrun; exact h.withSched _
  | finish failed => cases hrun; exact h.running _

theorem Served.fresh (capacity : Nat) (cleanup : Bool) : (fresh α capacity cleanup).Served :=
  ⟨nofun, nofun, nofun⟩

end State

end StreamPipe

end Moonbit

end WitBindgen
