import WitBindgen.Moonbit.StreamCalls

/-!
# What flows through a local stream

The values that a pipe takes from its writes are, in their order, those that it
handed to reads, those that the drop of the reader found in the buffer, and those
that are still there.

A read that goes on without having been served leaves a record behind that looks
alive, and the values of the next write are handed to nobody. A call is only woken
so where its coroutine had an entry in the run queue when it started to wait.
-/

namespace WitBindgen

namespace Moonbit

namespace StreamPipe

theorem takeLive_some {live : Nat → Bool} {n : Nat} {rest : List Nat} :
    ∀ {ns : List Nat}, takeLive live ns = (some n, rest) →
      live n = true ∧ ∀ m ∈ ns, live m = true → m = n ∨ m ∈ rest
  | [], h => nomatch h
  | m :: ns, h => by
    rw [takeLive] at h
    split at h
    · rename_i hm
      cases h
      exact ⟨hm, fun k hk _ => List.mem_cons.mp hk⟩
    · rename_i hm
      obtain ⟨hn, hrest⟩ := takeLive_some h
      refine ⟨hn, fun k hk hlive => ?_⟩
      rcases List.mem_cons.mp hk with rfl | hk
      · exact absurd hlive hm
      · exact hrest k hk hlive

theorem takeLive_none {live : Nat → Bool} {rest : List Nat} :
    ∀ {ns : List Nat}, takeLive live ns = (none, rest) → ∀ m ∈ ns, live m = false
  | [], _, _, hm => nomatch hm
  | m :: ns, h, k, hk => by
    rw [takeLive] at h
    split at h
    · cases h
    · rename_i hm
      rcases List.mem_cons.mp hk with rfl | hk
      · exact Bool.not_eq_true _ ▸ hm
      · exact takeLive_none h k hk

namespace State

variable {α : Type} {s : State α}

/-! ## The invariant -/

/-- The values on their way. -/
structure Flow (s : State α) : Prop where
  order : s.handed.flatMap Prod.snd ++ s.removed ++ s.contents = s.accepted.flatMap Prod.snd
  cleaned : s.cleaned ++ s.discarded = s.removed ++ s.reclaimed.flatMap Prod.snd
  one : s.discarded = [] ∨ s.cleaned = [] ∧ s.reclaimed = []
  undropped : s.readerDropped = false →
    s.removed = [] ∧ s.reclaimed = [] ∧ s.cleaned = [] ∧ s.discarded = []
  buffered : s.buffered = s.contents.length
  bounded : s.buffered ≤ s.capacity

/-- A read waits only for want of values, a write only for want of room. -/
structure Quiet (s : State α) : Prop where
  readers : ∀ r c, (s.reader r).coro = some c → r ∈ s.readers ∧ s.head = none ∧ s.chunks = [] ∧
    (∀ w, (s.writer w).coro = none) ∧ s.writerClosed = false ∧ s.readerDropped = false
  writers : ∀ w c, (s.writer w).coro = some c → w ∈ s.writers ∧ s.buffered = s.capacity ∧
    s.writerClosed = false ∧ s.readerDropped = false

structure Inv (s : State α) : Prop where
  sched : s.sched.Inv
  reads : s.Reads
  writes : s.Writes
  flow : s.Flow
  quiet : s.Quiet

theorem Inv.withSched (h : s.Inv) {sched : Scheduler Waits} (hs : sched.Inv)
    (hk : ∀ k, k = .start ∨ k = .other ∨ s.sched.Keeps sched k) : ({ s with sched := sched } : State α).Inv where
  sched := hs
  reads := h.reads.withSched fun r => (hk (.read r)).elim nofun (Or.elim · nofun id)
  writes := h.writes.withSched fun w => (hk (.write w)).elim nofun (Or.elim · nofun id)
  flow := { h.flow with }
  quiet := { h.quiet with }

/-! ## Records -/

theorem wakeReader_live {r : ReadId} {c : CoroId} (h : (s.reader r).coro = some c)
    (value : Option (List α)) (ended : Bool) : s.wakeReader r value ended = { s with
      reader := Function.update s.reader r ⟨(s.reader r).max, value, ended, none⟩
      sched := s.sched.wake c } := by
  rw [wakeReader, h]

theorem wakeWriter_live {w : WriteId} {c : CoroId} (h : (s.writer w).coro = some c) (n : Nat) :
    s.wakeWriter w n = { s with
      writer := Function.update s.writer w ⟨none, n, none⟩
      took := Function.update s.took w n
      sched := s.sched.wake c } := by
  rw [wakeWriter, h]

/-- The record of a write that was served or given up is empty. -/
theorem Writes.wake_dead (h : s.Writes) {w : WriteId} (hw : (s.writer w).coro = none) (n : Nat) :
    s.wakeWriter w n = s := by
  have hsame : { s.writer w with value := none } = s.writer w := by
    rw [← h.dead w hw]
  rw [wakeWriter, hw]
  dsimp only
  rw [hsame, Function.update_eq_self]

theorem Writes.live_iff (h : s.Writes) (w : WriteId) :
    s.liveWriter w = true ↔ ∃ c, (s.writer w).coro = some c := by
  rw [liveWriter, Bool.and_eq_true, Option.isSome_iff_exists, and_iff_left_iff_imp]
  rintro ⟨c, hc⟩
  rw [(h.live w c hc).2.1]
  rfl

theorem liveReader_iff (s : State α) (r : ReadId) :
    s.liveReader r = true ↔ ∃ c, (s.reader r).coro = some c := by
  rw [liveReader, Option.isSome_iff_exists]

theorem Reads.spawned (h : s.Reads) (hs : s.sched.Inv) {r : ReadId} {c : CoroId}
    (hc : (s.reader r).coro = some c) : c < s.sched.coroId :=
  hs.spawned (by rw [(h.live r c hc).1]; nofun)

theorem Writes.spawned (h : s.Writes) (hs : s.sched.Inv) {w : WriteId} {c : CoroId}
    (hc : (s.writer w).coro = some c) : c < s.sched.coroId :=
  hs.spawned (by rw [(h.live w c hc).1]; nofun)

/-! ## Loops over the records -/

/-- The reads that wait are told that the stream has ended. -/
theorem wake_readers : ∀ (rs : List ReadId) {s s' : State α},
    rs.foldl (fun s r => s.wakeReader r none true) s = s' → s.sched.Inv → s.Reads → s.Writes →
      s'.sched.Inv ∧ s'.Reads ∧ s'.Writes ∧
      (∃ reader sched, s' = { s with reader, sched }) ∧
      ∀ r c, (s'.reader r).coro = some c → (s.reader r).coro = some c ∧ r ∉ rs
  | [], s, s', heq, hs, hr, hw => by
    cases heq
    exact ⟨hs, hr, hw, ⟨s.reader, s.sched, rfl⟩, fun r c hc => ⟨hc, List.not_mem_nil⟩⟩
  | r :: rs, s, s', heq, hs, hr, hw => by
    rw [List.foldl_cons] at heq
    cases hcoro : (s.reader r).coro with
    | none =>
      have hsame : s.wakeReader r none true = s := by rw [wakeReader, hcoro]
      rw [hsame] at heq
      obtain ⟨hs', hr', hw', hfields, hdead⟩ := wake_readers rs heq hs hr hw
      refine ⟨hs', hr', hw', hfields, fun r' c hc => ⟨(hdead r' c hc).1, fun hin => ?_⟩⟩
      rcases List.mem_cons.mp hin with rfl | hin
      · have hlive := (hdead r' c hc).1
        rw [hcoro] at hlive
        cases hlive
      · exact (hdead r' c hc).2 hin
    | some c =>
      rw [wakeReader_live hcoro] at heq
      have hstate := (hr.live r c hcoro).1
      obtain ⟨hs', hr', hw', ⟨reader, sched, hfields⟩, hdead⟩ := wake_readers rs heq
        (hs.wake (hr.spawned hs hcoro)) (hr.serve hcoro none true (Or.inl ⟨rfl, rfl, rfl⟩))
        { hw.withSched (fun w => .wake (by rw [hstate]; nofun)) with }
      refine ⟨hs', hr', hw', ⟨reader, sched, hfields⟩, fun r' d hd => ?_⟩
      obtain ⟨hlive, hnot⟩ := hdead r' d hd
      dsimp only at hlive
      by_cases hr' : r' = r
      · subst hr'
        rw [Function.update_self] at hlive
        cases hlive
      · rw [Function.update_of_ne hr'] at hlive
        exact ⟨hlive, fun hin => (List.mem_cons.mp hin).elim hr' hnot⟩

theorem takes_reclaim (s : State α) (w : WriteId) (data cleaned : List α) :
    s.Takes { s with cleaned, reclaimed := s.reclaimed ++ [(w, data)] } w data data.length := by
  refine ⟨⟨[(w, data)], ?_, Or.inr ⟨data, rfl, List.prefix_rfl, rfl⟩⟩, fun p hp => ?_⟩
  · rw [kept, kept, ← List.append_assoc]
    exact List.perm_append_singleton _ _
  · exact (List.mem_append.mp hp).imp id List.mem_singleton.mp

/-- What the reader gets and what is buffered have no part in a drop of the writes. -/
structure Drops (s s' : State α) : Prop where
  fields : ∃ writer took sched cleaned reclaimed,
    s' = { s with writer, took, sched, cleaned, reclaimed }
  cleaned : s.cleaned ++ s.discarded = s.removed ++ s.reclaimed.flatMap Prod.snd →
    s'.cleaned ++ s'.discarded = s'.removed ++ s'.reclaimed.flatMap Prod.snd

/-- The values of the writes that wait are cleaned up, or the writes keep them. -/
theorem drop_writers (cleanup : Bool) : ∀ (ws : List WriteId) {s s' : State α},
    ws.foldl (dropWriter cleanup) s = s' → s.sched.Inv → s.Reads → s.Writes →
      (cleanup = true → s.discarded = []) →
      s'.sched.Inv ∧ s'.Reads ∧ s'.Writes ∧ s.Drops s' ∧
      (cleanup = false → s'.cleaned = s.cleaned ∧ s'.reclaimed = s.reclaimed) ∧
      ∀ w c, (s'.writer w).coro = some c → (s.writer w).coro = some c ∧ w ∉ ws
  | [], s, s', heq, hs, hr, hw, _ => by
    cases heq
    exact ⟨hs, hr, hw, ⟨⟨_, _, _, _, _, rfl⟩, id⟩, fun _ => ⟨rfl, rfl⟩,
      fun w c hc => ⟨hc, List.not_mem_nil⟩⟩
  | w :: ws, s, s', heq, hs, hr, hw, hdis => by
    rw [List.foldl_cons] at heq
    cases hcoro : (s.writer w).coro with
    | none =>
      have hsame : dropWriter cleanup s w = s := by
        rw [dropWriter.eq_def, hw.dead w hcoro]
        cases cleanup <;> exact hw.wake_dead hcoro 0
      rw [hsame] at heq
      obtain ⟨hs', hr', hw', hdrops, hkeep, hdead⟩ := drop_writers cleanup ws heq hs hr hw hdis
      refine ⟨hs', hr', hw', hdrops, hkeep, fun u c hc => ⟨(hdead u c hc).1, fun hin => ?_⟩⟩
      rcases List.mem_cons.mp hin with rfl | hin
      · have hlive := (hdead u c hc).1
        rw [hcoro] at hlive
        cases hlive
      · exact (hdead u c hc).2 hin
    | some c =>
      obtain ⟨hstate, hvalue, -⟩ := hw.live w c hcoro
      have hwake := hs.wake (hw.spawned hs hcoro)
      have hreads : ({ s with sched := s.sched.wake c } : State α).Reads :=
        hr.withSched fun r => .wake (by rw [hstate]; nofun)
      have hdeads : ∀ (t : State α) (n : Nat), t.writer = Function.update s.writer w ⟨none, n, none⟩ →
          (∀ u d, (s'.writer u).coro = some d → (t.writer u).coro = some d ∧ u ∉ ws) →
          ∀ u d, (s'.writer u).coro = some d → (s.writer u).coro = some d ∧ u ∉ w :: ws := by
        intro t n ht hdead u d hd
        obtain ⟨hlive, hnot⟩ := hdead u d hd
        rw [ht] at hlive
        by_cases hu : u = w
        · subst hu
          rw [Function.update_self] at hlive
          cases hlive
        · rw [Function.update_of_ne hu] at hlive
          exact ⟨hlive, fun hin => (List.mem_cons.mp hin).elim hu hnot⟩
      rw [dropWriter.eq_def, hvalue] at heq
      cases cleanup with
      | true =>
        dsimp only at heq
        rw [wakeWriter_live (s := { s with
          cleaned := s.cleaned ++ s.data w
          reclaimed := s.reclaimed ++ [(w, s.data w)] }) hcoro] at heq
        have hserve := hw.serve hcoro (s.takes_reclaim w (s.data w) s.cleaned)
        obtain ⟨hs', hr', hw', hdrops, -, hdead⟩ :=
          drop_writers true ws heq hwake { hreads with } { hserve with } hdis
        refine ⟨hs', hr', hw', ⟨?_, fun hclean => hdrops.cleaned ?_⟩, nofun, hdeads _ _ rfl hdead⟩
        · obtain ⟨writer, took, sched, cleaned, reclaimed, rfl⟩ := hdrops.fields
          exact ⟨writer, took, sched, cleaned, reclaimed, rfl⟩
        · dsimp only
          rw [hdis rfl, List.append_nil] at hclean ⊢
          rw [hclean, List.flatMap_append, List.flatMap_singleton, List.append_assoc]
      | false =>
        dsimp only at heq
        rw [wakeWriter_live hcoro] at heq
        have hserve := hw.serve hcoro (s.takes_nothing w (s.data w))
        obtain ⟨hs', hr', hw', hdrops, hkeep, hdead⟩ :=
          drop_writers false ws heq hwake { hreads with } { hserve with } nofun
        refine ⟨hs', hr', hw', ⟨?_, hdrops.cleaned⟩, hkeep, hdeads _ _ rfl hdead⟩
        obtain ⟨writer, took, sched, cleaned, reclaimed, rfl⟩ := hdrops.fields
        exact ⟨writer, took, sched, cleaned, reclaimed, rfl⟩

/-! ## Steps of the values -/

theorem contents_empty (hhead : s.head = none) (hchunks : s.chunks = []) : s.contents = [] := by
  rw [contents, hhead, hchunks, Option.getD_none, List.drop_nil, List.flatten_nil, List.append_nil]

/-- The first values of a write go to the end of the buffer. -/
theorem Flow.push (h : s.Flow) (w : WriteId) {chunk : List α}
    (hroom : chunk.length ≤ s.capacity - s.buffered) : ((s.push chunk).accept w chunk).Flow := by
  have hcontents : (s.push chunk).contents = s.contents ++ chunk := by
    simp only [contents, State.push, List.flatten_append, List.flatten_cons, List.flatten_nil,
      List.append_nil, List.append_assoc]
  have hle := h.bounded
  exact { h with
    order := by
      have horder := h.order
      change s.handed.flatMap Prod.snd ++ s.removed ++ (s.push chunk).contents =
        (s.accepted ++ [(w, chunk)]).flatMap Prod.snd
      rw [hcontents, ← List.append_assoc, horder, List.flatMap_append, List.flatMap_singleton]
    buffered := by
      have hbuffered := h.buffered
      change s.buffered + chunk.length = (s.push chunk).contents.length
      rw [hcontents, List.length_append, hbuffered]
    bounded := by
      change s.buffered + chunk.length ≤ s.capacity
      omega }

/-- The first values of a write go to a read, past an empty buffer. -/
theorem Flow.pass (h : s.Flow) (hdropped : s.readerDropped = false) (hempty : s.contents = [])
    (w : WriteId) (r : ReadId) (chunk : List α) : ((s.accept w chunk).hand r chunk).Flow :=
  { h with
    order := by
      have horder := h.order
      have hcontents : ((s.accept w chunk).hand r chunk).contents = [] := hempty
      rw [hcontents, List.append_nil]
      rw [hempty, List.append_nil] at horder
      simp only [hand, accept, List.flatMap_append, List.flatMap_singleton]
      rw [(h.undropped hdropped).1, List.append_nil] at horder ⊢
      rw [horder] }

/-- A read takes the first values of the buffer. -/
theorem Flow.unbuffer (h : s.Flow) (hdropped : s.readerDropped = false) {head : List α}
    (hhead : s.head = some head) (count : Nat) (r : ReadId) {chunk : List α}
    (hchunk : chunk = (head.drop s.headPos).take count) :
    ({ s with
      head := if head.length ≤ s.headPos + chunk.length then none else some head
      headPos := if head.length ≤ s.headPos + chunk.length then 0 else s.headPos + chunk.length
      buffered := s.buffered - chunk.length
      handed := s.handed ++ [(r, chunk)] } : State α).Flow := by
  have hold : s.contents = chunk ++ (head.drop (s.headPos + chunk.length) ++ s.chunks.flatten) := by
    have htake : chunk = (head.drop s.headPos).take chunk.length := by
      rw [hchunk, List.length_take, ← List.take_eq_take_min]
    rw [contents, hhead, Option.getD_some, ← List.append_assoc]
    have hsplit := List.take_append_drop chunk.length (head.drop s.headPos)
    rw [← htake, List.drop_drop] at hsplit
    rw [hsplit]
  have hnew : ({ s with
      head := if head.length ≤ s.headPos + chunk.length then none else some head
      headPos := if head.length ≤ s.headPos + chunk.length then 0 else s.headPos + chunk.length }
        : State α).contents = head.drop (s.headPos + chunk.length) ++ s.chunks.flatten := by
    rw [contents]
    split
    · rename_i hle
      rw [List.drop_eq_nil_of_le hle]
      rfl
    · rfl
  have hbuffered := h.buffered
  rw [hold, List.length_append] at hbuffered
  have hle := h.bounded
  exact { h with
    order := by
      have horder := h.order
      rw [(h.undropped hdropped).1, List.append_nil, hold, ← List.append_assoc] at horder
      refine Eq.trans ?_ horder
      rw [List.flatMap_append, List.flatMap_singleton, (h.undropped hdropped).1, List.append_nil]
      exact congrArg _ hnew
    buffered := by
      refine Eq.trans ?_ (congrArg List.length hnew).symm
      dsimp only
      omega
    bounded := by
      dsimp only
      omega }

/-- What is in the buffer at the drop is removed. -/
theorem Flow.clear (h : s.Flow) (hdropped : s.readerDropped = false) : s.clear.Flow := by
  obtain ⟨hremoved, hreclaimed, hcleaned, hdiscarded⟩ := h.undropped hdropped
  have hempty : s.clear.contents = [] := rfl
  constructor
  · have horder := h.order
    rw [hempty, List.append_nil]
    rw [List.append_assoc] at horder
    exact horder
  · rw [State.clear]
    dsimp only
    rw [hremoved, hreclaimed, hcleaned, hdiscarded]
    split <;> simp
  · rw [State.clear]
    dsimp only
    rw [hreclaimed, hcleaned, hdiscarded]
    split
    · exact Or.inl rfl
    · exact Or.inr ⟨rfl, rfl⟩
  · nofun
  · rfl
  · exact Nat.zero_le _

/-! ## The ends are closed -/

theorem Inv.no_readers (h : s.Inv) (hb : s.buffered ≠ 0) (r : ReadId) : (s.reader r).coro = none := by
  cases hc : (s.reader r).coro with
  | none => rfl
  | some c =>
    obtain ⟨-, hhead, hchunks, -⟩ := h.quiet.readers r c hc
    rw [h.flow.buffered, contents_empty hhead hchunks] at hb
    exact absurd rfl hb

theorem Inv.closeWriter (h : s.Inv) : s.closeWriter.Inv := by
  rw [State.closeWriter]
  split
  · exact h
  · have hloop : (fun (s : State α) w => s.wakeWriter w 0) = dropWriter false := rfl
    rw [hloop]
    dsimp only
    generalize heq : List.foldl (dropWriter false) { s with writerClosed := true } s.writers = t
    obtain ⟨hs, hr, hw, hdrops, hkeep, hdead⟩ := drop_writers false s.writers heq h.sched
      { h.reads with } { h.writes with } nofun
    obtain ⟨writer, took, sched, cleaned, reclaimed, rfl⟩ := hdrops.fields
    obtain ⟨hc, hrc⟩ := hkeep rfl
    dsimp only at hc hrc
    subst hc hrc
    have hnone : ∀ w c, (writer w).coro = some c → False := fun w c hc =>
      (hdead w c hc).2 (h.quiet.writers w c (hdead w c hc).1).1
    split
    · rw [endReaders]
      dsimp only
      generalize heq' : List.foldl _ _ s.readers = t'
      obtain ⟨hs', hr', hw', ⟨reader, sched', hfields⟩, hdead'⟩ := wake_readers s.readers heq' hs
        { hr with } { hw with }
      subst hfields
      exact ⟨hs', { hr' with }, { hw' with }, { h.flow with },
        ⟨fun r c hc => absurd (h.quiet.readers r c (hdead' r c hc).1).1 (hdead' r c hc).2,
          fun w c hc => (hnone w c hc).elim⟩⟩
    · rename_i hb
      refine ⟨hs, { hr with }, { hw with }, { h.flow with }, ⟨fun r c hc => ?_, fun w c hc => (hnone w c hc).elim⟩⟩
      have hnone' := h.no_readers hb r
      dsimp only at hc
      rw [hnone'] at hc
      cases hc

theorem Inv.dropReader (h : s.Inv) : s.dropReader.Inv := by
  rw [State.dropReader]
  split
  · exact h
  · rename_i hdropped
    have hflow := h.flow.clear (Bool.not_eq_true _ ▸ hdropped)
    have hdis : s.clear.cleanup = true → s.clear.discarded = [] := fun hcleanup => by
      have hcleanup' : s.cleanup = true := hcleanup
      rw [State.clear]
      dsimp only
      rw [hcleanup', if_pos rfl]
      exact (h.flow.undropped (Bool.not_eq_true _ ▸ hdropped)).2.2.2
    dsimp only
    rw [endReaders]
    generalize heq : List.foldl _ s.clear s.clear.readers = t
    obtain ⟨hs, hr, hw, ⟨reader, sched, hfields⟩, hdead⟩ := wake_readers s.clear.readers heq h.sched
      { h.reads with } { h.writes with }
    subst hfields
    dsimp only
    generalize heq' : List.foldl _ _ s.clear.writers = t'
    obtain ⟨hs', hr', hw', hdrops, hkeep, hdead'⟩ := drop_writers s.clear.cleanup s.clear.writers heq' hs
      { hr with } { hw with } hdis
    obtain ⟨writer, took, sched', cleaned, reclaimed, rfl⟩ := hdrops.fields
    refine ⟨hs', { hr' with }, { hw' with }, ?_, ⟨fun r c hc => ?_, fun w c hc => ?_⟩⟩
    · exact { hflow with
        cleaned := hdrops.cleaned hflow.cleaned
        undropped := nofun
        one := by
          cases hcleanup : s.clear.cleanup with
          | true => exact Or.inl (hdis hcleanup)
          | false =>
            obtain ⟨hc, hrc⟩ := hkeep hcleanup
            dsimp only at hc hrc ⊢
            rw [hc, hrc]
            exact hflow.one }
    · exact absurd (h.quiet.readers r c (hdead r c hc).1).1 (hdead r c hc).2
    · exact absurd (h.quiet.writers w c (hdead' w c hc).1).1 (hdead' w c hc).2

theorem Inv.rejectReader (h : s.Inv) : s.rejectReader.Inv := by
  rw [State.rejectReader]
  exact Inv.dropReader ⟨h.sched, { h.reads with }, { h.writes with }, { h.flow with }, { h.quiet with }⟩

/-! ## Filling the buffer -/

theorem Writes.takes_first (h : s.Writes) {w : WriteId} {c : CoroId} (hc : (s.writer w).coro = some c)
    (n : Nat) : ((s.writer w).value.getD []).take n <+: s.data w := by
  rw [(h.live w c hc).2.1]
  exact List.take_prefix n _

/-- A waiting write is served, in a pipe in which values may already have moved. -/
theorem Writes.accept (h : s.Writes) {w : WriteId} {c : CoroId} (hc : (s.writer w).coro = some c)
    {chunk : List α} (hchunk : chunk <+: s.data w) :
    ({ s with
      writer := Function.update s.writer w ⟨none, chunk.length, none⟩
      took := Function.update s.took w chunk.length
      sched := s.sched.wake c
      accepted := s.accepted ++ [(w, chunk)] } : State α).Writes :=
  h.serve hc (s.takes_accept w hchunk)

theorem Inv.fillFrom : ∀ (ws : List WriteId) {s : State α}, s.sched.Inv → s.Reads → s.Writes → s.Flow →
    (∀ r, (s.reader r).coro = none) → s.writerClosed = false → s.readerDropped = false →
    (∀ w c, (s.writer w).coro = some c → w ∈ ws) → (s.fillFrom ws).Inv
  | [], s, hs, hr, hw, hf, hnone, _, _, hlive => by
    rw [State.fillFrom]
    refine ⟨hs, { hr with }, { hw with }, { hf with }, ⟨fun r c hc => ?_, fun w c hc => nomatch hlive w c hc⟩⟩
    have hdead := hnone r
    exact absurd (hdead.symm.trans hc) nofun
  | w :: ws, s, hs, hr, hw, hf, hnone, hclosed, hdropped, hlive => by
    rw [State.fillFrom]
    split
    · rename_i hfull
      refine ⟨hs, { hr with }, { hw with }, { hf with }, ⟨fun r c hc => ?_, fun u c hc => ?_⟩⟩
      · have hdead := hnone r
        dsimp only at hc
        rw [hdead] at hc
        cases hc
      · exact ⟨hlive u c hc, Nat.le_antisymm hf.bounded hfull, hclosed, hdropped⟩
    · split
      · rename_i hw'
        obtain ⟨c, hc⟩ := (hw.live_iff w).mp hw'
        dsimp only
        generalize hchunk : List.take (s.capacity - s.buffered) ((s.writer w).value.getD []) = chunk
        have hfirst : chunk <+: s.data w := hchunk ▸ hw.takes_first hc _
        have hroom : chunk.length ≤ s.capacity - s.buffered := hchunk ▸ List.length_take_le _ _
        have hcoro : (((s.push chunk).accept w chunk).writer w).coro = some c := hc
        rw [wakeWriter_live hcoro]
        have hstate := (hw.live w c hc).1
        have hreads : ({ s with sched := s.sched.wake c } : State α).Reads :=
          hr.withSched fun r => .wake (by rw [hstate]; nofun)
        refine Inv.fillFrom ws (hs.wake (hw.spawned hs hc)) { hreads with } { hw.accept hc hfirst with }
          { hf.push w hroom with } hnone hclosed hdropped fun u d hd => ?_
        by_cases hu : u = w
        · subst hu
          dsimp only at hd
          rw [Function.update_self] at hd
          cases hd
        · dsimp only at hd
          rw [Function.update_of_ne hu] at hd
          exact (List.mem_cons.mp (hlive u d hd)).elim (fun heq => absurd heq hu) id
      · rename_i hw'
        refine Inv.fillFrom ws hs hr hw hf hnone hclosed hdropped fun u d hd => ?_
        rcases List.mem_cons.mp (hlive u d hd) with rfl | hu
        · exact absurd ((hw.live_iff u).mpr ⟨d, hd⟩) hw'
        · exact hu

/-- Room was made in the buffer. -/
theorem Inv.fill (hs : s.sched.Inv) (hr : s.Reads) (hw : s.Writes) (hf : s.Flow)
    (hnone : ∀ r, (s.reader r).coro = none)
    (hlive : ∀ w c, (s.writer w).coro = some c →
      w ∈ s.writers ∧ s.writerClosed = false ∧ s.readerDropped = false) : s.fill.Inv := by
  rw [State.fill]
  split
  · rename_i hskip
    refine ⟨hs, hr, hw, hf, ⟨fun r c hc => ?_, fun w c hc => ?_⟩⟩
    · rw [hnone r] at hc
      cases hc
    · obtain ⟨hin, hclosed, hdropped⟩ := hlive w c hc
      rw [hclosed, hdropped, Bool.or_false, Bool.or_false, decide_eq_true_iff] at hskip
      have hle := hf.bounded
      exact ⟨hin, by omega, hclosed, hdropped⟩
  · rename_i hskip
    simp only [Bool.or_eq_true, decide_eq_true_iff, not_or, Bool.not_eq_true] at hskip
    exact Inv.fillFrom s.writers hs hr hw hf hnone hskip.1.2 hskip.2 fun w c hc => (hlive w c hc).1

/-! ## Writing -/

theorem Inv.write (h : s.Inv) {c : CoroId} (hcurr : s.sched.currCoro = some c)
    (hready : (s.sched.coros c).interrupted = false → (s.sched.coros c).ready = false) (data : List α) :
    (s.write c data).Inv := by
  have hrun := (h.sched.running c).mpr hcurr
  rw [State.write]
  split
  · exact ⟨h.sched, { h.reads with },
      { h.writes.record (some 0) rfl s.writer (fun _ => Or.inl rfl) (s.takes_nothing s.writes data) with },
      { h.flow with }, { h.quiet with }⟩
  · rename_i hopen
    simp only [Bool.or_eq_true, not_or, Bool.not_eq_true] at hopen
    obtain ⟨⟨-, hclosed⟩, hdropped⟩ := hopen
    split
    · rename_i r rest htake
      obtain ⟨hlive, hrest⟩ := takeLive_some htake
      obtain ⟨d, hd⟩ := (s.liveReader_iff r).mp hlive
      obtain ⟨-, hhead, hchunks, hnowrite, -, -⟩ := h.quiet.readers r d hd
      dsimp only
      generalize hchunk : List.take (s.reader r).max data = chunk
      have hfirst : chunk <+: data := hchunk ▸ List.take_prefix _ _
      rw [wakeReader_live (s := { s with readers := rest }) hd]
      have hstate := (h.reads.live r d hd).1
      have hwake : ∀ w, s.sched.Keeps (s.sched.wake d) (.write w) := fun w => .wake (by rw [hstate]; nofun)
      refine ⟨h.sched.wake (h.reads.spawned h.sched hd),
        { h.reads.serve hd (some chunk) false (Or.inr ⟨chunk, rfl, rfl⟩) with },
        { (h.writes.withSched hwake).record (some chunk.length) rfl s.writer (fun _ => Or.inl rfl)
          (takes_accept _ s.writes hfirst) with },
        { h.flow.pass hdropped (contents_empty hhead hchunks) s.writes r chunk with },
        ⟨fun r' c' hc' => ?_, fun w c' hc' => ?_⟩⟩
      · by_cases hr : r' = r
        · subst hr
          dsimp only [hand, State.accept, State.returnWrite] at hc'
          rw [Function.update_self] at hc'
          cases hc'
        · dsimp only [hand, State.accept, State.returnWrite] at hc'
          rw [Function.update_of_ne hr] at hc'
          obtain ⟨hin, hall⟩ := h.quiet.readers r' c' hc'
          exact ⟨(hrest r' hin ((s.liveReader_iff r').mpr ⟨c', hc'⟩)).elim (fun heq => absurd heq hr) id, hall⟩
      · have hdead := hnowrite w
        exact absurd (hdead.symm.trans hc') nofun
    · rename_i rest htake
      have hnoread : ∀ r, (s.reader r).coro = none := fun r => by
        cases hc' : (s.reader r).coro with
        | none => rfl
        | some d =>
          have hdead := takeLive_none htake r (h.quiet.readers r d hc').1
          rw [(s.liveReader_iff r).mpr ⟨d, hc'⟩] at hdead
          cases hdead
      have hquiet : ∀ {t : State α}, t.reader = s.reader → ∀ r d, (t.reader r).coro = some d → False :=
        fun ht r d hd => by
          rw [ht, hnoread r] at hd
          cases hd
      dsimp only
      split
      · rename_i hroom
        generalize hchunk : List.take (s.capacity - s.buffered) data = chunk
        have hfirst : chunk <+: data := hchunk ▸ List.take_prefix _ _
        have hlen : chunk.length ≤ s.capacity - s.buffered := hchunk ▸ List.length_take_le _ _
        refine ⟨h.sched, { h.reads with },
          { h.writes.record (some chunk.length) rfl s.writer (fun _ => Or.inl rfl)
            (s.takes_accept s.writes hfirst) with },
          { h.flow.push s.writes hlen with },
          ⟨fun r d hd => (hquiet rfl r d hd).elim, fun w d hd => ?_⟩⟩
        exact absurd (h.quiet.writers w d hd).2.1 (Nat.ne_of_lt hroom.2)
      · rename_i hfull
        have hle := h.flow.bounded
        rw [waitWrite]
        dsimp only
        split
        · exact ⟨h.sched, { h.reads with },
            { h.writes.record none rfl (Function.update s.writer s.writes ⟨none, 0, none⟩)
              (fun w => by
                by_cases hw : w = s.writes
                · subst hw
                  exact Or.inr ⟨rfl, Function.update_self ..⟩
                · exact Or.inl (Function.update_of_ne hw _ _))
              (s.takes_nothing s.writes data) with },
            { h.flow with },
            ⟨fun r d hd => (hquiet rfl r d hd).elim, fun w d hd => by
              by_cases hw : w = s.writes
              · subst hw
                dsimp only at hd
                rw [Function.update_self] at hd
                cases hd
              · dsimp only at hd
                rw [Function.update_of_ne hw] at hd
                obtain ⟨hin, hall⟩ := h.quiet.writers w d hd
                exact ⟨List.mem_append_left _ hin, hall⟩⟩⟩
        · rename_i hint
          have hready' := hready (Bool.not_eq_true _ ▸ hint)
          have hreads : ({ s with sched := s.sched.suspend c (.write s.writes) } : State α).Reads :=
            h.reads.withSched fun r => .update (c := c) rfl (by rw [hrun]; nofun) nofun
          exact ⟨h.sched.leave hcurr nofun, { hreads with },
            { h.writes.wait hrun hready' data with },
            { h.flow with },
            ⟨fun r d hd => (hquiet rfl r d hd).elim, fun w d hd => by
              by_cases hw : w = s.writes
              · subst hw
                exact ⟨List.mem_append_right _ (List.mem_singleton_self _),
                  (by dsimp only; omega), hclosed, hdropped⟩
              · dsimp only at hd
                rw [Function.update_of_ne hw] at hd
                obtain ⟨hin, hall⟩ := h.quiet.writers w d hd
                exact ⟨List.mem_append_left _ hin, hall⟩⟩⟩

/-! ## Reading -/

theorem Inv.nextHead (h : s.Inv) : s.nextHead.Inv := by
  rw [State.nextHead]
  split
  · rename_i chunk rest hhead hchunks
    have hcontents : ({ s with head := some chunk, headPos := 0, chunks := rest } : State α).contents =
        s.contents := by
      rw [contents, contents, hhead, hchunks, Option.getD_some, Option.getD_none, List.drop_zero,
        List.drop_nil, List.nil_append, List.flatten_cons]
    refine ⟨h.sched, { h.reads with }, { h.writes with }, ?_, ⟨fun r c hc => ?_, h.quiet.writers⟩⟩
    · exact { h.flow with
        order := (congrArg _ hcontents).trans h.flow.order
        buffered := h.flow.buffered.trans (congrArg List.length hcontents).symm }
    · have hempty := (h.quiet.readers r c hc).2.2.1
      rw [hchunks] at hempty
      cases hempty
  · exact h

@[simp] theorem nextHead_sched : s.nextHead.sched = s.sched := by
  rw [nextHead]; split <;> rfl

@[simp] theorem nextHead_readerDropped : s.nextHead.readerDropped = s.readerDropped := by
  rw [nextHead]; split <;> rfl

theorem nextHead_none (h : s.nextHead.head = none) : s.nextHead.chunks = [] := by
  rw [nextHead] at h ⊢
  split at h
  · cases h
  · rename_i hne
    cases hchunks : s.chunks with
    | nil => rfl
    | cons chunk rest => exact absurd hchunks (hne chunk rest h)

theorem Inv.readHead (h : s.Inv) (hdropped : s.readerDropped = false) {head : List α}
    (hhead : s.head = some head) (count : Nat) : (s.readHead head count).Inv := by
  rw [State.readHead]
  generalize hchunk : List.take count (head.drop s.headPos) = chunk
  have hnone : ∀ r, (s.reader r).coro = none := fun r => by
    cases hc : (s.reader r).coro with
    | none => rfl
    | some c =>
      have hempty := (h.quiet.readers r c hc).2.1
      rw [hhead] at hempty
      cases hempty
  refine Inv.fill h.sched { h.reads.returnRead chunk with } { h.writes with }
    { h.flow.unbuffer hdropped hhead count s.reads hchunk.symm with } hnone fun w c hc => ?_
  obtain ⟨hin, -, hopen⟩ := h.quiet.writers w c hc
  exact ⟨hin, hopen⟩

theorem Inv.readLoop (h : s.Inv) {c : CoroId} (hcurr : s.sched.currCoro = some c)
    (hready : (s.sched.coros c).interrupted = false → (s.sched.coros c).ready = false) (count : Nat) :
    (s.readLoop c count).Inv := by
  rw [State.readLoop]
  split
  · exact h
  · rename_i hdropped
    have hinv := h.nextHead
    have hchunks := nextHead_none (s := s)
    have hdropped' : s.nextHead.readerDropped = false := by
      rw [nextHead_readerDropped]
      exact Bool.not_eq_true _ ▸ hdropped
    rw [← nextHead_sched] at hcurr hready
    dsimp only
    generalize s.nextHead = t at hinv hchunks hdropped' hcurr hready ⊢
    have hrun := (hinv.sched.running c).mpr hcurr
    split
    · rename_i head hhead
      exact hinv.readHead hdropped' hhead count
    · rename_i hhead
      have hempty := contents_empty hhead (hchunks hhead)
      split
      · rename_i w rest htake
        obtain ⟨hlive, hrest⟩ := takeLive_some htake
        obtain ⟨d, hd⟩ := (hinv.writes.live_iff w).mp hlive
        obtain ⟨-, hfull, hopen⟩ := hinv.quiet.writers w d hd
        have hstate := (hinv.writes.live w d hd).1
        generalize hchunk : List.take count ((t.writer w).value.getD []) = chunk
        have hfirst : chunk <+: t.data w := hchunk ▸ hinv.writes.takes_first hd _
        have hcoro : ((({ t with writers := rest } : State α).accept w chunk).writer w).coro = some d := hd
        rw [wakeWriter_live hcoro]
        have hreads : ({ t with sched := t.sched.wake d } : State α).Reads :=
          hinv.reads.withSched fun r => .wake (by rw [hstate]; nofun)
        refine ⟨hinv.sched.wake (hinv.writes.spawned hinv.sched hd), { hreads.returnRead chunk with },
          { hinv.writes.accept hd hfirst with }, { hinv.flow.pass hdropped' hempty w t.reads chunk with },
          ⟨fun r e he => ?_, fun u e he => ?_⟩⟩
        · have hdead := (hinv.quiet.readers r e he).2.2.2.1 w
          rw [hd] at hdead
          cases hdead
        · by_cases hu : u = w
          · subst hu
            dsimp only [State.returnRead] at he
            rw [Function.update_self] at he
            cases he
          · dsimp only [State.returnRead] at he
            rw [Function.update_of_ne hu] at he
            obtain ⟨hin, hall⟩ := hinv.quiet.writers u e he
            refine ⟨(hrest u hin ((hinv.writes.live_iff u).mpr ⟨e, he⟩)).elim (fun heq => absurd heq hu) id, hall⟩
      · rename_i rest htake
        have hnowrite : ∀ w, (t.writer w).coro = none := fun w => by
          cases hc' : (t.writer w).coro with
          | none => rfl
          | some d =>
            have hdead := takeLive_none htake w (hinv.quiet.writers w d hc').1
            rw [(hinv.writes.live_iff w).mpr ⟨d, hc'⟩] at hdead
            cases hdead
        have hquiet : ∀ w d, (t.writer w).coro = some d → False := fun w d hd => by
          rw [hnowrite w] at hd
          cases hd
        split
        · exact ⟨hinv.sched, { hinv.reads with }, { hinv.writes with }, { hinv.flow with },
            ⟨hinv.quiet.readers, fun w d hd => (hquiet w d hd).elim⟩⟩
        · rename_i hopen
          rw [waitRead]
          dsimp only
          split
          · refine ⟨hinv.sched, { hinv.reads.wait hrun (Or.inl ⟨rfl, rfl⟩) with }, { hinv.writes with },
              { hinv.flow with }, ⟨fun r d hd => ?_, fun w d hd => (hquiet w d hd).elim⟩⟩
            by_cases hr : r = t.reads
            · subst hr
              dsimp only at hd
              rw [Function.update_self] at hd
              cases hd
            · dsimp only at hd
              rw [Function.update_of_ne hr] at hd
              obtain ⟨hin, hall⟩ := hinv.quiet.readers r d hd
              exact ⟨List.mem_append_left _ hin, hall⟩
          · rename_i hint
            have hready' := hready (Bool.not_eq_true _ ▸ hint)
            have hwrites : ({ t with sched := t.sched.suspend c (.read t.reads) } : State α).Writes :=
              hinv.writes.withSched fun w => .update (c := c) rfl (by rw [hrun]; nofun) nofun
            refine ⟨hinv.sched.leave hcurr nofun,
              { hinv.reads.wait hrun (Or.inr ⟨rfl, hready', rfl⟩) with }, { hwrites with },
              { hinv.flow with }, ⟨fun r d hd => ?_, fun w d hd => (hquiet w d hd).elim⟩⟩
            by_cases hr : r = t.reads
            · subst hr
              exact ⟨List.mem_append_right _ (List.mem_singleton_self _), hhead, hchunks hhead, hnowrite,
                Bool.not_eq_true _ ▸ hopen, hdropped'⟩
            · dsimp only at hd
              rw [Function.update_of_ne hr] at hd
              obtain ⟨hin, hall⟩ := hinv.quiet.readers r d hd
              exact ⟨List.mem_append_left _ hin, hall⟩

/-! ## Going on -/

/-- A read goes on that was served, told of the end, or is cancelled. -/
theorem Inv.readResumed (h : s.Inv) {sched : Scheduler Waits} (hs : sched.Inv) {c : CoroId} {r : ReadId}
    (hc : (s.sched.coros c).state = .suspend (.read r)) (hready : (s.sched.coros c).ready = true)
    (hother : ∀ d, d ≠ c → sched.coros d = s.sched.coros d) (hnew : (sched.coros c).state = .running)
    (hint : (sched.coros c).interrupted = (s.sched.coros c).interrupted) :
    ({ s with sched := sched } : State α).readResumed c r (sched.coros c).interrupted |>.Inv := by
  have hwrites : ({ s with sched := sched } : State α).Writes := h.writes.withSched fun w =>
    .update (c := c) (x := sched.coros c) (funext fun d => by
      by_cases hd : d = c
      · subst hd; rw [Function.update_self]
      · rw [Function.update_of_ne hd, hother d hd]) (by rw [hc]; simp) (by rw [hnew]; simp)
  -- where the call does not raise, its record was taken
  have hdead : (sched.coros c).interrupted = false → (s.reader r).coro = none ∧
      ((s.reader r).value = none → (s.reader r).ended = true) := fun hfalse => by
    rcases (h.reads.waits c r hc).2.2 with hlive | ⟨hnone, -, hserved⟩
    · have hcancelled := (h.reads.live r c hlive).2.2 hready
      rw [← hint, hfalse] at hcancelled
      cases hcancelled
    · refine ⟨hnone, fun hvalue => ?_⟩
      rcases hserved with ⟨-, hended⟩ | ⟨v, hv, -⟩
      · exact hended
      · rw [hvalue] at hv
        cases hv
  have hnew' : ∀ r', (sched.coros c).state ≠ .suspend (.read r') := fun r' => by rw [hnew]; simp
  -- the reader of this call is not waiting afterwards, and no other is touched
  have hquiet : ∀ {y : Reader α}, y.coro = none → ∀ r' d,
      (Function.update s.reader r y r').coro = some d → (s.reader r').coro = some d := fun hy r' d hd => by
    by_cases hr : r' = r
    · subst hr
      rw [Function.update_self, hy] at hd
      cases hd
    · rw [Function.update_of_ne hr] at hd
      exact hd
  have hgo : ∀ (y : Reader α) (out : List (ReadId × List α)), y.coro = none →
      out = (s.reader r).value.elim s.readOut (fun v => s.readOut ++ [(r, v)]) →
      ({ s with sched := sched, reader := Function.update s.reader r y, readOut := out } : State α).Inv :=
    fun y out hy hout => ⟨hs, h.reads.leave hc hother hnew' hy (hout.trans (by cases (s.reader r).value <;> rfl)), { hwrites with }, { h.flow with },
      ⟨fun r' d hd => h.quiet.readers r' d (hquiet hy r' d hd), h.quiet.writers⟩⟩
  rw [State.readResumed]
  cases hraised : (sched.coros c).interrupted with
  | true =>
    rw [if_pos rfl]
    simp only [Function.update_self]
    cases hvalue : (s.reader r).value with
    | some v => exact hgo _ _ rfl (by rw [hvalue]; rfl)
    | none =>
      dsimp only
      rw [Bool.or_true, if_pos rfl]
      exact hgo _ s.readOut rfl (by rw [hvalue]; rfl)
  | false =>
    obtain ⟨hnone, hended⟩ := hdead hraised
    rw [if_neg Bool.false_ne_true]
    dsimp only
    cases hvalue : (s.reader r).value with
    | some v =>
      have hinv := hgo (s.reader r) _ hnone (by rw [hvalue])
      rw [Function.update_eq_self] at hinv
      exact hinv
    | none =>
      dsimp only
      rw [hended hvalue, Bool.true_or, if_pos rfl]
      have hinv := hgo (s.reader r) s.readOut hnone (by rw [hvalue]; rfl)
      rw [Function.update_eq_self] at hinv
      exact hinv

/-- A write goes on that was served or is cancelled. -/
theorem Inv.writeResumed (h : s.Inv) {sched : Scheduler Waits} (hs : sched.Inv) {c : CoroId} {w : WriteId}
    (hc : (s.sched.coros c).state = .suspend (.write w)) (hready : (s.sched.coros c).ready = true)
    (hother : ∀ d, d ≠ c → sched.coros d = s.sched.coros d) (hnew : (sched.coros c).state = .running)
    (hint : (sched.coros c).interrupted = (s.sched.coros c).interrupted) :
    ({ s with sched := sched } : State α).writeResumed w (sched.coros c).interrupted |>.Inv := by
  have hreads : ({ s with sched := sched } : State α).Reads := h.reads.withSched fun r =>
    .update (c := c) (x := sched.coros c) (funext fun d => by
      by_cases hd : d = c
      · subst hd; rw [Function.update_self]
      · rw [Function.update_of_ne hd, hother d hd]) (by rw [hc]; nofun) (by rw [hnew]; nofun)
  have hgo : ∀ n : Option Nat, n.getD 0 = s.took w → ({ s with
      sched := sched
      writer := Function.update s.writer w ⟨none, (s.writer w).accepted, none⟩
      results := s.results ++ [(w, n)] } : State α).Inv := fun n hn =>
    ⟨hs, { hreads with }, h.writes.leave hc hother (fun u => by rw [hnew]; nofun) hn, { h.flow with },
      ⟨fun r d hd => by
        obtain ⟨hin, hhead, hchunks, hnone, hopen⟩ := h.quiet.readers r d hd
        refine ⟨hin, hhead, hchunks, fun u => ?_, hopen⟩
        dsimp only
        by_cases hu : u = w
        · subst hu; rw [Function.update_self]
        · rw [Function.update_of_ne hu]; exact hnone u,
      fun u d hd => by
        refine h.quiet.writers u d ?_
        dsimp only at hd
        by_cases hu : u = w
        · subst hu
          rw [Function.update_self] at hd
          cases hd
        · rw [Function.update_of_ne hu] at hd
          exact hd⟩⟩
  rw [State.writeResumed]
  dsimp only
  rcases (h.writes.waits c w hc).2.2 with hlive | ⟨hnone, -, htook⟩
  · obtain ⟨-, -, hkept, hcancelled⟩ := h.writes.live w c hlive
    rw [hint, hcancelled hready, hlive, Option.isSome_some, Bool.and_true, if_pos rfl, if_pos rfl]
    exact hgo none (h.writes.rest w hkept).symm
  · rw [hnone, Option.isSome_none, Bool.and_false, if_neg Bool.false_ne_true, if_neg nofun]
    exact hgo (some (s.writer w).accepted) htook

theorem Inv.resume (h : s.Inv) (hcurr : s.sched.currCoro = none) (lane : Lane) : (s.resume lane).Inv := by
  have hs := h.sched.reschedule hcurr lane
  rw [State.resume]
  split
  · exact h
  · rename_i c rest hqueue
    have hready : (s.sched.coros c).ready = true :=
      ((h.sched.mem_iff lane c).mp (by rw [hqueue]; exact List.mem_cons_self ..)).1
    have hother := fun d (hd : d ≠ c) => s.sched.reschedule_other hqueue hd
    have hcoro := s.sched.reschedule_first hqueue
    dsimp only
    split
    · rename_i r hc
      rw [hc] at hcoro
      exact h.readResumed hs hc hready hother (by rw [hcoro]) (by rw [hcoro]; rfl)
    · rename_i w hc
      rw [hc] at hcoro
      exact h.writeResumed hs hc hready hother (by rw [hcoro]) (by rw [hcoro]; rfl)
    · rename_i hc
      rw [hc] at hcoro
      refine h.withSched (hs.set rfl rfl rfl) fun k => ?_
      by_cases hk : k = .start
      · exact Or.inl hk
      · refine Or.inr (Or.inr (.update (c := c) (x := { (s.sched.reschedule lane).coros c with shielded := false })
          (funext fun d => ?_) ?_ ?_))
        · dsimp only [Scheduler.shield, Scheduler.set]
          by_cases hd : d = c
          · subst hd; rw [Function.update_self, Function.update_self]
          · rw [Function.update_of_ne hd, Function.update_of_ne hd, hother d hd]
        · rw [hc]
          rintro heq
          cases heq
          exact hk rfl
        · rw [hcoro]
          nofun
    · rename_i hnoread hnowrite _
      refine h.withSched hs fun k => ?_
      cases k with
      | start => exact Or.inl rfl
      | other => exact Or.inr (Or.inl rfl)
      | read r => exact Or.inr (Or.inr (.reschedule hqueue (hnoread r)))
      | write w => exact Or.inr (Or.inr (.reschedule hqueue (hnowrite w)))

/-! ## Every run -/

/-- What the running coroutine does to itself is noticed by no call. -/
theorem Inv.running (h : s.Inv) {f : CoroId → Scheduler Waits}
    (hf : ∀ c, s.sched.currCoro = some c → (f c).Inv ∧ ∃ x, (f c).coros = Function.update s.sched.coros c x ∧
      ∀ k, k = .other ∨ x.state ≠ .suspend k) : (s.running f).Inv := by
  rw [State.running]
  split
  · rename_i c hcurr
    obtain ⟨hs, x, hx, hnew⟩ := hf c hcurr
    refine h.withSched hs fun k => Or.inr ((hnew k).imp id fun hne => ?_)
    exact .update hx (by rw [(h.sched.running c).mpr hcurr]; nofun) hne
  · exact h

theorem Inv.exec (h : s.Inv) {e : Event α} (hok : s.allowed e) (hnq : s.Undisturbed e) {s' : State α}
    (hrun : s.exec e = .ok s') : s'.Inv := by
  cases e with
  | spawn lane =>
    cases hrun
    have hfresh := h.sched.fresh s.sched.coroId (Nat.le_refl _)
    refine h.withSched (h.sched.spawnOwned lane .start) fun k => ?_
    by_cases hk : k = .start
    · exact Or.inl hk
    · refine Or.inr (Or.inr (.update (c := s.sched.coroId) rfl (by rw [hfresh.1]; nofun) ?_))
      -- the new coroutine waits for its start and for nothing else
      rintro heq
      cases heq
      exact hk rfl
  | resume lane => cases hrun; exact h.resume hok lane
  | write data =>
    rw [State.exec] at hrun
    split at hrun
    · rename_i c hcurr
      cases hrun
      exact h.write hcurr (hnq c hcurr) data
    · cases hrun
  | read count =>
    rw [State.exec] at hrun
    split at hrun
    · rename_i c hcurr
      cases hrun
      rw [State.read]
      split
      · exact h
      · exact h.readLoop hcurr (hnq c hcurr) count
    · cases hrun
  | close => cases hrun; exact h.closeWriter
  | drop => cases hrun; exact h.dropReader
  | reject => cases hrun; exact h.rejectReader
  | cancel c => cases hrun; exact h.withSched h.sched.cancel fun k => Or.inr (Or.inr (.cancel _ c k))
  | shield shielded =>
    cases hrun
    refine h.running fun c hcurr => ⟨h.sched.set rfl rfl rfl, _, rfl, fun k => Or.inr ?_⟩
    rw [(h.sched.running c).mpr hcurr]
    nofun
  | park =>
    cases hrun
    refine h.running fun c hcurr => ?_
    split
    · refine ⟨h.sched, s.sched.coros c, (Function.update_eq_self _ _).symm, fun k => Or.inr ?_⟩
      rw [(h.sched.running c).mpr hcurr]
      nofun
    · refine ⟨h.sched.leave hcurr nofun, _, rfl, fun k => ?_⟩
      by_cases hk : k = .other
      · exact Or.inl hk
      · refine Or.inr ?_
        rintro heq
        cases heq
        exact hk rfl
  | unpark c =>
    cases hrun
    -- nobody in the pipe is woken from elsewhere
    obtain ⟨hread, hwrite⟩ := hnq
    refine h.withSched (h.sched.wake hok) fun k => ?_
    cases k with
    | start => exact Or.inl rfl
    | other => exact Or.inr (Or.inl rfl)
    | read r => exact Or.inr (Or.inr (.wake (hread r)))
    | write w => exact Or.inr (Or.inr (.wake (hwrite w)))
  | finish failed =>
    cases hrun
    refine h.running fun c hcurr => ?_
    cases failed
    · exact ⟨h.sched.leave hcurr nofun, _, rfl, fun k => Or.inr nofun⟩
    · exact ⟨h.sched.leave hcurr nofun, _, rfl, fun k => Or.inr nofun⟩

theorem Inv.fresh (capacity : Nat) (cleanup : Bool) : (fresh α capacity cleanup).Inv where
  sched := Scheduler.Inv.empty
  reads := by
    constructor
    · nofun
    · nofun
    · nofun
    · exact ⟨List.nodup_nil, nofun⟩
    · exact ⟨List.nodup_nil, nofun⟩
    · nofun
  writes := by
    constructor
    · nofun
    · exact fun _ _ => rfl
    · nofun
    · nofun
    · exact ⟨List.nodup_nil, nofun⟩
    · nofun
    · exact ⟨List.nodup_nil, nofun⟩
    · nofun
    · exact fun _ _ => rfl
  flow := ⟨rfl, rfl, Or.inl rfl, fun _ => ⟨rfl, rfl, rfl, rfl⟩, rfl, Nat.zero_le _⟩
  quiet := ⟨nofun, nofun⟩

end State

theorem State.Inv.of_reachable {α : Type} {capacity : Nat} {cleanup : Bool} {s : State α}
    (h : (orderly α capacity cleanup).Reachable s) : s.Inv :=
  System.Reachable.invariant (S := orderly α capacity cleanup) (I := State.Inv)
    (fun _ hs => hs ▸ .fresh capacity cleanup) (fun _ _ _ hinv hok hrun => hinv.exec hok.1 hok.2 hrun) h

/-- What the two ends of a stream rely on. -/
structure State.Conserved {α : Type} (s : State α) : Prop where
  /-- The accepted values are, in their order, those that reads were given, those
  that the drop of the reader removed, and those in the buffer. -/
  order : s.handed.flatMap Prod.snd ++ s.removed ++ s.contents = s.accepted.flatMap Prod.snd
  /-- The drop cleans up what it removes and the values of the writes that wait, or
  discards what it removes. -/
  removed : s.readerDropped = false → s.removed = [] ∧ s.reclaimed = []
  cleaned : s.cleaned ++ s.discarded = s.removed ++ s.reclaimed.flatMap Prod.snd
  cleanup : s.discarded = [] ∨ s.cleaned = [] ∧ s.reclaimed = []
  /-- Of a write its first values are accepted, or all its values reclaimed, and the
  call tells how many. -/
  taken : (s.kept.map Prod.fst).Nodup ∧ ∀ p ∈ s.kept, p.2 <+: s.data p.1 ∧ s.took p.1 = p.2.length
  reclaimed : ∀ p ∈ s.reclaimed, p.2 = s.data p.1
  untaken : ∀ w, w ∉ s.kept.map Prod.fst → s.took w = 0
  results : (s.results.map Prod.fst).Nodup ∧ ∀ p ∈ s.results, p.2.getD 0 = s.took p.1
  waiting : ∀ w < s.writes, w ∈ s.results.map Prod.fst ∨
    ∃ c, (s.sched.coros c).state = .suspend (.write w) ∧
      ((s.writer w).value = some (s.data w) ∧ s.took w = 0 ∨ (s.writer w).accepted = s.took w)
  /-- A read returns what it was given. -/
  given : (s.handed.map Prod.fst).Nodup ∧ ∀ p ∈ s.handed, p ∈ s.readOut ∨
    ∃ c, (s.sched.coros c).state = .suspend (.read p.1) ∧ (s.reader p.1).value = some p.2 ∧
      (s.sched.coros c).ready = true
  readOut : (s.readOut.map Prod.fst).Nodup ∧ ∀ p ∈ s.readOut, p ∈ s.handed
  buffered : s.buffered = s.contents.length
  bounded : s.buffered ≤ s.capacity
  reader : ∀ r, s.liveReader r = true → s.contents = [] ∧ ∀ w, s.liveWriter w = false
  writer : ∀ w, s.liveWriter w = true → s.buffered = s.capacity

/-- As long as no coroutine waits in the pipe with an entry of its own in the run
queue, values come out in the order in which they were accepted, and none is lost
but by the drop of the reader. -/
theorem values_conserved (α : Type) (capacity : Nat) (cleanup : Bool) (s : State α)
    (h : (orderly α capacity cleanup).Reachable s) : s.Conserved := by
  have hinv := State.Inv.of_reachable h
  exact {
    order := hinv.flow.order
    removed := fun hdropped => ⟨(hinv.flow.undropped hdropped).1, (hinv.flow.undropped hdropped).2.1⟩
    cleaned := hinv.flow.cleaned
    cleanup := hinv.flow.one
    taken := ⟨hinv.writes.kept.1, fun p hp => (hinv.writes.kept.2 p hp).2⟩
    reclaimed := hinv.writes.whole
    untaken := hinv.writes.rest
    results := ⟨hinv.writes.results.1, fun p hp => (hinv.writes.results.2 p hp).2⟩
    waiting := fun w hw => (hinv.writes.all w hw).imp id fun ⟨c, hc⟩ => ⟨c, hc, by
      rcases (hinv.writes.waits c w hc).2.2 with hlive | ⟨-, -, htook⟩
      · obtain ⟨-, hvalue, hkept, -⟩ := hinv.writes.live w c hlive
        exact Or.inl ⟨hvalue, hinv.writes.rest w hkept⟩
      · exact Or.inr htook⟩
    given := ⟨hinv.reads.handed.1, hinv.reads.pending⟩
    readOut := hinv.reads.out
    buffered := hinv.flow.buffered
    bounded := hinv.flow.bounded
    reader := fun r hr => by
      obtain ⟨c, hc⟩ := (s.liveReader_iff r).mp hr
      obtain ⟨-, hhead, hchunks, hnone, -⟩ := hinv.quiet.readers r c hc
      refine ⟨s.contents_empty hhead hchunks, fun w => ?_⟩
      rw [State.liveWriter, hnone w, Option.isSome_none, Bool.false_and]
    writer := fun w hw => by
      obtain ⟨c, hc⟩ := (hinv.writes.live_iff w).mp hw
      exact (hinv.quiet.writers w c hc).2.1 }

/-- Two coroutines at a pipe with room for one value: the first value of the first
write is read from the buffer, the second write waits for that. -/
theorem values_conserved_in_turn : ∃ s : State Nat,
    s.results = [(0, some 1)] ∧ s.readOut = [(0, [7]), (1, [9])] ∧ s.Conserved := by
  have h₀ : (orderly Nat 1 true).Reachable (State.fresh Nat 1 true) := .init _ rfl
  have h₁ := h₀.step _ _ (Event.spawn 0) ⟨trivial, trivial⟩ rfl
  have h₂ := h₁.step _ _ (Event.spawn 0) ⟨trivial, trivial⟩ rfl
  have h₃ := h₂.step _ _ (Event.resume 0) ⟨rfl, trivial⟩ rfl
  have h₄ := h₃.step _ _ (Event.write [7, 8]) ⟨rfl, fun c hc _ => by cases hc; rfl⟩ rfl
  have h₅ := h₄.step _ _ (Event.write [9]) ⟨rfl, fun c hc _ => by cases hc; rfl⟩ rfl
  have h₆ := h₅.step _ _ (Event.resume 0) ⟨rfl, trivial⟩ rfl
  have h₇ := h₆.step _ _ (Event.read 5) ⟨rfl, fun c hc _ => by cases hc; rfl⟩ rfl
  have h₈ := h₇.step _ _ (Event.read 5) ⟨rfl, fun c hc _ => by cases hc; rfl⟩ rfl
  exact ⟨_, rfl, rfl, values_conserved Nat 1 true _ h₈⟩

/-- A value that was accepted into the buffer of a stream without a cleanup is gone
when the readable end is dropped. -/
theorem buffered_value_discarded : ∃ s : State Nat, (system Nat 1 false).Reachable s ∧
    s.results = [(0, some 1)] ∧ s.handed = [] ∧ s.cleaned = [] ∧
    s.handed.flatMap Prod.snd ++ s.contents ≠ s.accepted.flatMap Prod.snd := by
  have h₀ : (system Nat 1 false).Reachable (State.fresh Nat 1 false) := .init _ rfl
  have h₁ := h₀.step _ _ (Event.spawn 0) trivial rfl
  have h₂ := h₁.step _ _ (Event.resume 0) rfl rfl
  have h₃ := h₂.step _ _ (Event.write [7]) rfl rfl
  have h₄ := h₃.step _ _ Event.drop trivial rfl
  exact ⟨_, h₄, rfl, rfl, rfl, by decide⟩

end StreamPipe

end Moonbit

end WitBindgen
