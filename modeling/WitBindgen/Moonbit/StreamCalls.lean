import WitBindgen.Moonbit.StreamPipe

/-!
# Reads and writes of a local stream

What the records of a pipe, the coroutines that wait for them and the account of
what was taken say of each other, and that serving a record, starting to wait and
going on keep it so. Reads and writes are looked at one by one here; what happens to
the values in between is the subject of the next file.
-/

namespace WitBindgen

namespace Moonbit

namespace StreamPipe

namespace State

variable {α : Type} {s : State α}

/-! ## Reads -/

/-- A read that waits has its coroutine in its record, or is about to go on with a
value that was handed to it or with the end of the stream. -/
structure Reads (s : State α) : Prop where
  live : ∀ r c, (s.reader r).coro = some c → (s.sched.coros c).state = .suspend (.read r) ∧
    (s.reader r).value = none ∧
    ((s.sched.coros c).ready = true → (s.sched.coros c).interrupted = true)
  waits : ∀ c r, (s.sched.coros c).state = .suspend (.read r) →
    r < s.reads ∧ r ∉ s.readOut.map Prod.fst ∧
    ((s.reader r).coro = some c ∨ (s.reader r).coro = none ∧ (s.sched.coros c).ready = true ∧
      ((s.reader r).value = none ∧ (s.reader r).ended = true ∨
        ∃ v, (s.reader r).value = some v ∧ (r, v) ∈ s.handed))
  unique : ∀ c d r, (s.sched.coros c).state = .suspend (.read r) →
    (s.sched.coros d).state = .suspend (.read r) → c = d
  handed : (s.handed.map Prod.fst).Nodup ∧ ∀ r ∈ s.handed.map Prod.fst, r < s.reads
  out : (s.readOut.map Prod.fst).Nodup ∧ ∀ p ∈ s.readOut, p ∈ s.handed
  pending : ∀ p ∈ s.handed, p ∈ s.readOut ∨ ∃ c, (s.sched.coros c).state = .suspend (.read p.1) ∧
    (s.reader p.1).value = some p.2 ∧ (s.sched.coros c).ready = true

theorem Reads.withSched (h : s.Reads) {sched : Scheduler Waits} (hk : ∀ r, s.sched.Keeps sched (.read r)) :
    ({ s with sched := sched } : State α).Reads where
  live r c hc := by
    obtain ⟨hstate, hvalue, hready⟩ := h.live r c hc
    refine ⟨((hk r).state c).mpr hstate, hvalue, fun hr => ?_⟩
    rcases (hk r).woken c hstate hr with hr | hi
    · exact (hk r).interrupted c hstate (hready hr)
    · exact hi
  waits c r hc := by
    have hstate := ((hk r).state c).mp hc
    obtain ⟨hlt, hout, hplace⟩ := h.waits c r hstate
    exact ⟨hlt, hout, hplace.imp id fun ⟨hnone, hr, hv⟩ => ⟨hnone, (hk r).ready c hstate hr, hv⟩⟩
  unique c d r hc hd := h.unique c d r (((hk r).state c).mp hc) (((hk r).state d).mp hd)
  handed := h.handed
  out := h.out
  pending p hp := (h.pending p hp).imp id fun ⟨c, hc, hv, hr⟩ =>
    ⟨c, ((hk p.1).state c).mpr hc, hv, (hk p.1).ready c hc hr⟩

/-- Nothing was handed to a read that still waits. -/
theorem Reads.not_handed (h : s.Reads) {r : ReadId} {c : CoroId} (hc : (s.reader r).coro = some c) :
    r ∉ s.handed.map Prod.fst := by
  intro hmem
  obtain ⟨p, hp, rfl⟩ := List.mem_map.mp hmem
  obtain ⟨hstate, hvalue, -⟩ := h.live _ c hc
  rcases h.pending p hp with hout | ⟨d, -, hv, -⟩
  · exact (h.waits c _ hstate).2.1 (List.mem_map.mpr ⟨p, hout, rfl⟩)
  · rw [hvalue] at hv
    cases hv

/-- A waiting read is served: with a value that is handed to it, or with the end. -/
theorem Reads.serve (h : s.Reads) {r : ReadId} {c : CoroId} (hc : (s.reader r).coro = some c)
    (value : Option (List α)) (ended : Bool) {handed : List (ReadId × List α)}
    (hserve : value = none ∧ ended = true ∧ handed = s.handed ∨
      ∃ v, value = some v ∧ handed = s.handed ++ [(r, v)]) :
    ({ s with
      reader := Function.update s.reader r ⟨(s.reader r).max, value, ended, none⟩
      sched := s.sched.wake c
      handed := handed } : State α).Reads := by
  obtain ⟨hstate, hvalue, -⟩ := h.live r c hc
  have hnot := h.not_handed hc
  have hmono : ∀ p ∈ s.handed, p ∈ handed := by
    rcases hserve with ⟨-, -, rfl⟩ | ⟨v, -, rfl⟩
    · exact fun p hp => hp
    · exact fun p hp => List.mem_append_left _ hp
  constructor
  · intro r' d hd
    dsimp only at hd ⊢
    by_cases hr : r' = r
    · subst hr
      rw [Function.update_self] at hd
      cases hd
    · rw [Function.update_of_ne hr] at hd ⊢
      obtain ⟨hstate', hvalue', hready'⟩ := h.live r' d hd
      have hne : d ≠ c := by
        rintro rfl
        rw [hstate] at hstate'
        cases hstate'
        exact hr rfl
      simp only [Scheduler.wake_state, Scheduler.wake_interrupted, Scheduler.wake_ready, hne,
        decide_false, Bool.false_or]
      exact ⟨hstate', hvalue', hready'⟩
  · intro d r' hd
    dsimp only at hd ⊢
    rw [Scheduler.wake_state] at hd
    obtain ⟨hlt, hout, hplace⟩ := h.waits d r' hd
    refine ⟨hlt, hout, ?_⟩
    by_cases hr : r' = r
    · subst hr
      cases h.unique _ _ _ hstate hd
      simp only [Function.update_self, Scheduler.wake_ready, decide_true, Bool.true_or, true_and]
      refine Or.inr ?_
      rcases hserve with ⟨rfl, rfl, -⟩ | ⟨v, rfl, rfl⟩
      · exact Or.inl ⟨rfl, rfl⟩
      · exact Or.inr ⟨v, rfl, by simp⟩
    · simp only [Function.update_of_ne hr, Scheduler.wake_ready, Bool.or_eq_true]
      refine hplace.imp id fun ⟨hnone, hready, hv⟩ => ⟨hnone, Or.inr hready, ?_⟩
      exact hv.imp id fun ⟨v, hv, hmem⟩ => ⟨v, hv, hmono _ hmem⟩
  · intro d d' r' hd hd'
    rw [Scheduler.wake_state] at hd hd'
    exact h.unique d d' r' hd hd'
  · rcases hserve with ⟨-, -, rfl⟩ | ⟨v, -, rfl⟩
    · exact h.handed
    · rw [List.map_append, List.map_singleton]
      refine ⟨List.nodup_append.mpr ⟨h.handed.1, List.pairwise_singleton _ _, ?_⟩, fun r' hr' => ?_⟩
      · intro a ha b hb
        rw [List.mem_singleton.mp hb]
        rintro rfl
        exact hnot ha
      · rcases List.mem_append.mp hr' with hr' | hr'
        · exact h.handed.2 r' hr'
        · rw [List.mem_singleton.mp hr']
          exact (h.waits c r hstate).1
  · exact ⟨h.out.1, fun p hp => hmono p (h.out.2 p hp)⟩
  · have hold : ∀ p ∈ s.handed, p ∈ s.readOut ∨ ∃ d, ((s.sched.wake c).coros d).state = .suspend (.read p.1) ∧
        (Function.update s.reader r ⟨(s.reader r).max, value, ended, none⟩ p.1).value = some p.2 ∧
        ((s.sched.wake c).coros d).ready = true := fun p hp => by
      have hne : p.1 ≠ r := by
        rintro rfl
        exact hnot (List.mem_map.mpr ⟨p, hp, rfl⟩)
      refine (h.pending p hp).imp id fun ⟨d, hd, hv, hready⟩ => ⟨d, ?_, ?_, ?_⟩
      · rw [Scheduler.wake_state]; exact hd
      · rw [Function.update_of_ne hne]; exact hv
      · rw [Scheduler.wake_ready, hready, Bool.or_true]
    intro p hp
    rcases hserve with ⟨-, -, rfl⟩ | ⟨v, rfl, rfl⟩
    · exact hold p hp
    · rcases List.mem_append.mp hp with hp | hp
      · exact hold p hp
      · rw [List.mem_singleton.mp hp]
        refine Or.inr ⟨c, ?_, ?_, ?_⟩
        · rw [Scheduler.wake_state]; exact hstate
        · dsimp only; rw [Function.update_self]
        · rw [Scheduler.wake_ready, decide_eq_true rfl, Bool.true_or]

/-- A read that finds values returns them. -/
theorem Reads.returnRead (h : s.Reads) (chunk : List α) : (s.returnRead chunk).Reads := by
  have hfresh : s.reads ∉ s.handed.map Prod.fst := fun hmem => Nat.lt_irrefl _ (h.handed.2 _ hmem)
  have hfreshOut : s.reads ∉ s.readOut.map Prod.fst := fun hmem => by
    obtain ⟨p, hp, heq⟩ := List.mem_map.mp hmem
    exact hfresh (List.mem_map.mpr ⟨p, h.out.2 p hp, heq⟩)
  have happend : ∀ {ps : List (ReadId × List α)}, (ps.map Prod.fst).Nodup → s.reads ∉ ps.map Prod.fst →
      ((ps ++ [(s.reads, chunk)]).map Prod.fst).Nodup := fun hps hnot => by
    rw [List.map_append, List.map_singleton]
    refine List.nodup_append.mpr ⟨hps, List.pairwise_singleton _ _, fun a ha b hb => ?_⟩
    rw [List.mem_singleton.mp hb]
    rintro rfl
    exact hnot ha
  rw [State.returnRead]
  constructor
  · exact h.live
  · intro c r hc
    obtain ⟨hlt, hout, hplace⟩ := h.waits c r hc
    refine ⟨Nat.lt_succ_of_lt hlt, ?_, hplace.imp id fun ⟨hnone, hready, hv⟩ => ⟨hnone, hready, ?_⟩⟩
    · rw [List.map_append, List.mem_append, List.map_singleton, List.mem_singleton]
      exact fun hmem => hmem.elim hout (Nat.ne_of_lt hlt)
    · exact hv.imp id fun ⟨v, hv, hmem⟩ => ⟨v, hv, List.mem_append_left _ hmem⟩
  · exact h.unique
  · refine ⟨happend h.handed.1 hfresh, fun r hr => ?_⟩
    rw [List.map_append, List.mem_append, List.map_singleton, List.mem_singleton] at hr
    rcases hr with hr | rfl
    · exact Nat.lt_succ_of_lt (h.handed.2 r hr)
    · exact Nat.lt_succ_self _
  · refine ⟨happend h.out.1 hfreshOut, fun p hp => ?_⟩
    exact (List.mem_append.mp hp).elim (fun hp => List.mem_append_left _ (h.out.2 p hp))
      (List.mem_append_right _)
  · intro p hp
    rcases List.mem_append.mp hp with hp | hp
    · exact (h.pending p hp).imp (List.mem_append_left _) id
    · exact Or.inl (List.mem_append_right _ hp)

/-- A coroutine starts to wait for a value, or its read raises. -/
theorem Reads.wait (h : s.Reads) {c : CoroId} (hrun : (s.sched.coros c).state = .running)
    {count : Nat} {coro : Option CoroId} {sched : Scheduler Waits}
    (hwait : coro = none ∧ sched = s.sched ∨ coro = some c ∧ (s.sched.coros c).ready = false ∧
      sched = s.sched.suspend c (.read s.reads)) :
    ({ s with
      reads := s.reads + 1
      reader := Function.update s.reader s.reads ⟨count, none, false, coro⟩
      sched := sched } : State α).Reads := by
  have hne : ∀ d r, (s.sched.coros d).state = .suspend (.read r) → r ≠ s.reads := fun d r hd =>
    Nat.ne_of_lt (h.waits d r hd).1
  have hhanded : ∀ p ∈ s.handed, p.1 ≠ s.reads := fun p hp =>
    Nat.ne_of_lt (h.handed.2 _ (List.mem_map.mpr ⟨p, hp, rfl⟩))
  -- the new read is given up first
  have hup : ({ s with
      reads := s.reads + 1
      reader := Function.update s.reader s.reads ⟨count, none, false, none⟩ } : State α).Reads := by
    constructor
    · intro r d hd
      dsimp only at hd ⊢
      by_cases hr : r = s.reads
      · subst hr
        rw [Function.update_self] at hd
        cases hd
      · rw [Function.update_of_ne hr] at hd ⊢
        exact h.live r d hd
    · intro d r hd
      obtain ⟨hlt, hout, hplace⟩ := h.waits d r hd
      dsimp only
      rw [Function.update_of_ne (hne d r hd)]
      exact ⟨Nat.lt_succ_of_lt hlt, hout, hplace⟩
    · exact h.unique
    · exact ⟨h.handed.1, fun r hr => Nat.lt_succ_of_lt (h.handed.2 r hr)⟩
    · exact h.out
    · intro p hp
      dsimp only
      rw [Function.update_of_ne (hhanded p hp)]
      exact h.pending p hp
  rcases hwait with ⟨rfl, rfl⟩ | ⟨rfl, hready, rfl⟩
  · exact hup
  · have hother : ∀ d, d ≠ c → (s.sched.suspend c (.read s.reads)).coros d = s.sched.coros d := fun d hd => by
      simp only [Scheduler.suspend, Scheduler.set, Function.update_of_ne hd]
    have hself : (s.sched.suspend c (.read s.reads)).coros c =
        { s.sched.coros c with state := .suspend (.read s.reads) } := by
      simp only [Scheduler.suspend, Scheduler.set, Function.update_self]
    have hsleeps : ∀ d r, ((s.sched.suspend c (.read s.reads)).coros d).state = .suspend (.read r) →
        d = c ∧ r = s.reads ∨ d ≠ c ∧ (s.sched.coros d).state = .suspend (.read r) := fun d r hd => by
      by_cases hdc : d = c
      · subst hdc
        rw [hself] at hd
        cases hd
        exact Or.inl ⟨rfl, rfl⟩
      · rw [hother d hdc] at hd
        exact Or.inr ⟨hdc, hd⟩
    have hnotc : ∀ d r, (s.sched.coros d).state = .suspend (.read r) → d ≠ c := fun d r hd => by
      rintro rfl
      rw [hrun] at hd
      cases hd
    constructor
    · intro r d hd
      dsimp only at hd ⊢
      by_cases hr : r = s.reads
      · subst hr
        rw [Function.update_self] at hd ⊢
        cases hd
        rw [hself]
        refine ⟨rfl, rfl, fun hr => ?_⟩
        dsimp only at hr
        rw [hready] at hr
        cases hr
      · rw [Function.update_of_ne hr] at hd ⊢
        have hlive := h.live r d hd
        rw [hother d (hnotc d r hlive.1)]
        exact hlive
    · intro d r hd
      dsimp only at hd ⊢
      rcases hsleeps d r hd with ⟨rfl, rfl⟩ | ⟨hdc, hold⟩
      · refine ⟨Nat.lt_succ_self _, fun hmem => ?_, Or.inl (by rw [Function.update_self])⟩
        obtain ⟨p, hp, heq⟩ := List.mem_map.mp hmem
        exact hhanded p (h.out.2 p hp) heq
      · obtain ⟨hlt, hout, hplace⟩ := h.waits d r hold
        rw [hother d hdc, Function.update_of_ne (hne d r hold)]
        exact ⟨Nat.lt_succ_of_lt hlt, hout, hplace⟩
    · intro d d' r hd hd'
      rcases hsleeps d r hd with ⟨rfl, rfl⟩ | ⟨-, hold⟩
      · rcases hsleeps d' _ hd' with ⟨rfl, -⟩ | ⟨-, hold'⟩
        · rfl
        · exact absurd rfl (hne d' _ hold')
      · rcases hsleeps d' r hd' with ⟨rfl, rfl⟩ | ⟨-, hold'⟩
        · exact absurd rfl (hne d _ hold)
        · exact h.unique d d' r hold hold'
    · exact hup.handed
    · exact h.out
    · intro p hp
      refine (h.pending p hp).imp id (Exists.imp fun d hd => ?_)
      obtain ⟨hd, hv, hr⟩ := hd
      dsimp only
      rw [hother d (hnotc d _ hd), Function.update_of_ne (hhanded p hp)]
      exact ⟨hd, hv, hr⟩

/-- A read that waited goes on; it returns the value that was handed to it. -/
theorem Reads.leave (h : s.Reads) {c : CoroId} {r : ReadId}
    (hc : (s.sched.coros c).state = .suspend (.read r)) {sched : Scheduler Waits}
    (hother : ∀ d, d ≠ c → sched.coros d = s.sched.coros d)
    (hnew : ∀ r', (sched.coros c).state ≠ .suspend (.read r')) {y : Reader α} (hy : y.coro = none)
    {out : List (ReadId × List α)} (hout : out = match (s.reader r).value with
      | some v => s.readOut ++ [(r, v)]
      | none => s.readOut) :
    ({ s with
      sched := sched
      reader := Function.update s.reader r y
      readOut := out } : State α).Reads := by
  obtain ⟨-, hrout, hplace⟩ := h.waits c r hc
  have hnotc : ∀ d r', (sched.coros d).state = .suspend (.read r') → d ≠ c := fun d r' hd => by
    rintro rfl
    exact hnew r' hd
  have hner : ∀ d r', d ≠ c → (s.sched.coros d).state = .suspend (.read r') → r' ≠ r := fun d r' hdc hd => by
    rintro rfl
    exact hdc (h.unique d c r' hd hc)
  -- what is returned was handed to this read
  have hmem : ∀ p, p ∈ out ↔ p ∈ s.readOut ∨ p.1 = r ∧ (s.reader r).value = some p.2 := fun p => by
    rw [hout]
    split
    · rename_i v hv
      rw [List.mem_append, List.mem_singleton]
      refine or_congr_right ⟨?_, ?_⟩
      · rintro rfl
        exact ⟨rfl, hv⟩
      · rintro ⟨rfl, hv'⟩
        cases hv.symm.trans hv'
        rfl
    · rename_i hv
      rw [hv]
      exact ⟨Or.inl, fun hp => hp.elim id fun hp => nomatch hp.2⟩
  constructor
  · intro r' d hd
    dsimp only at hd ⊢
    by_cases hr : r' = r
    · subst hr
      rw [Function.update_self, hy] at hd
      cases hd
    · rw [Function.update_of_ne hr] at hd ⊢
      have hlive := h.live r' d hd
      have hdc : d ≠ c := by
        rintro rfl
        rw [hc] at hlive
        cases hlive.1
        exact hr rfl
      rw [hother d hdc]
      exact hlive
  · intro d r' hd
    have hdc := hnotc d r' hd
    dsimp only at hd ⊢
    rw [hother d hdc] at hd ⊢
    have hr := hner d r' hdc hd
    rw [Function.update_of_ne hr]
    obtain ⟨hlt, hrout', hplace'⟩ := h.waits d r' hd
    refine ⟨hlt, fun hin => ?_, hplace'⟩
    obtain ⟨p, hp, rfl⟩ := List.mem_map.mp hin
    rcases (hmem p).mp hp with hp | ⟨heq, -⟩
    · exact hrout' (List.mem_map.mpr ⟨p, hp, rfl⟩)
    · exact hr heq
  · intro d d' r' hd hd'
    rw [hother d (hnotc d r' hd)] at hd
    rw [hother d' (hnotc d' r' hd')] at hd'
    exact h.unique d d' r' hd hd'
  · exact h.handed
  · constructor
    · dsimp only
      rw [hout]
      split
      · rw [List.map_append, List.map_singleton]
        refine List.nodup_append.mpr ⟨h.out.1, List.pairwise_singleton _ _, fun a ha b hb => ?_⟩
        rw [List.mem_singleton.mp hb]
        rintro rfl
        exact hrout ha
      · exact h.out.1
    · intro p hp
      rcases (hmem p).mp hp with hp | ⟨hp, hv⟩
      · exact h.out.2 p hp
      · rcases hplace with hlive | ⟨-, -, ⟨hnone, -⟩ | ⟨v, hv', hin⟩⟩
        · rw [(h.live r c hlive).2.1] at hv
          cases hv
        · rw [hnone] at hv
          cases hv
        · rw [hv'] at hv
          cases hv
          rw [← hp] at hin
          exact hin
  · intro p hp
    dsimp only
    by_cases hr : p.1 = r
    · refine Or.inl ((hmem p).mpr ?_)
      refine (h.pending p hp).imp id fun ⟨_, _, hv, _⟩ => ⟨hr, ?_⟩
      rw [hr] at hv
      exact hv
    · rcases h.pending p hp with hp | ⟨d, hd, hv, hready⟩
      · exact Or.inl ((hmem p).mpr (Or.inl hp))
      · refine Or.inr ⟨d, ?_, ?_, ?_⟩
        · rw [hother]
          · exact hd
          · rintro rfl
            rw [hc] at hd
            cases hd
            exact hr rfl
        · rw [Function.update_of_ne hr]
          exact hv
        · rw [hother]
          · exact hready
          · rintro rfl
            rw [hc] at hd
            cases hd
            exact hr rfl

/-! ## Writes -/

/-- All values that were taken, by write. -/
def kept (s : State α) : List (WriteId × List α) := s.accepted ++ s.reclaimed

/-- A write that waits has its coroutine and all its values in its record, or is
about to go on with the number of values that were taken. -/
structure Writes (s : State α) : Prop where
  live : ∀ w c, (s.writer w).coro = some c → (s.sched.coros c).state = .suspend (.write w) ∧
    (s.writer w).value = some (s.data w) ∧ w ∉ s.kept.map Prod.fst ∧
    ((s.sched.coros c).ready = true → (s.sched.coros c).interrupted = true)
  dead : ∀ w, (s.writer w).coro = none → (s.writer w).value = none
  waits : ∀ c w, (s.sched.coros c).state = .suspend (.write w) →
    w < s.writes ∧ w ∉ s.results.map Prod.fst ∧
    ((s.writer w).coro = some c ∨
      (s.writer w).coro = none ∧ (s.sched.coros c).ready = true ∧ (s.writer w).accepted = s.took w)
  unique : ∀ c d w, (s.sched.coros c).state = .suspend (.write w) →
    (s.sched.coros d).state = .suspend (.write w) → c = d
  results : (s.results.map Prod.fst).Nodup ∧ ∀ p ∈ s.results, p.1 < s.writes ∧ p.2.getD 0 = s.took p.1
  all : ∀ w < s.writes, w ∈ s.results.map Prod.fst ∨ ∃ c, (s.sched.coros c).state = .suspend (.write w)
  kept : (s.kept.map Prod.fst).Nodup ∧
    ∀ p ∈ s.kept, p.1 < s.writes ∧ p.2 <+: s.data p.1 ∧ s.took p.1 = p.2.length
  whole : ∀ p ∈ s.reclaimed, p.2 = s.data p.1
  rest : ∀ w, w ∉ s.kept.map Prod.fst → s.took w = 0

theorem Writes.withSched (h : s.Writes) {sched : Scheduler Waits} (hk : ∀ w, s.sched.Keeps sched (.write w)) :
    ({ s with sched := sched } : State α).Writes where
  live w c hc := by
    obtain ⟨hstate, hvalue, hkept, hready⟩ := h.live w c hc
    refine ⟨((hk w).state c).mpr hstate, hvalue, hkept, fun hr => ?_⟩
    rcases (hk w).woken c hstate hr with hr | hi
    · exact (hk w).interrupted c hstate (hready hr)
    · exact hi
  dead := h.dead
  waits c w hc := by
    have hstate := ((hk w).state c).mp hc
    obtain ⟨hlt, hres, hplace⟩ := h.waits c w hstate
    exact ⟨hlt, hres, hplace.imp id fun ⟨hnone, hr, hv⟩ => ⟨hnone, (hk w).ready c hstate hr, hv⟩⟩
  unique c d w hc hd := h.unique c d w (((hk w).state c).mp hc) (((hk w).state d).mp hd)
  results := h.results
  all w hw := (h.all w hw).imp id fun ⟨c, hc⟩ => ⟨c, ((hk w).state c).mpr hc⟩
  kept := h.kept
  whole := h.whole
  rest := h.rest

/-- One more entry in the account of what was taken: of write `w`, the first `n`
values, or nothing. -/
structure Takes (s s' : State α) (w : WriteId) (data : List α) (n : Nat) : Prop where
  perm : ∃ extra, s'.kept.Perm (extra ++ s.kept) ∧
    (extra = [] ∧ n = 0 ∨ ∃ chunk, extra = [(w, chunk)] ∧ chunk <+: data ∧ n = chunk.length)
  whole : ∀ p ∈ s'.reclaimed, p ∈ s.reclaimed ∨ p = (w, data)

/-- Such an entry keeps the account, where nothing was taken of that write before. -/
theorem Takes.account {s' : State α} {w : WriteId} {data : List α} {n : Nat} (h : s.Takes s' w data n)
    (hs : s.Writes) (hnew : w ∉ s.kept.map Prod.fst) {writes : WriteId} (hle : s.writes ≤ writes)
    (hw : w < writes) (datas : WriteId → List α) (took : WriteId → Nat) (hdata : datas w = data)
    (htook : took w = n) (hother : ∀ u, u ≠ w → datas u = s.data u ∧ took u = s.took u) :
    ((s'.kept.map Prod.fst).Nodup ∧
      ∀ p ∈ s'.kept, p.1 < writes ∧ p.2 <+: datas p.1 ∧ took p.1 = p.2.length) ∧
    (∀ p ∈ s'.reclaimed, p ∈ s'.kept → p.2 = datas p.1) ∧
    (∀ u, u ∉ s'.kept.map Prod.fst → took u = 0) ∧
    (∀ u, u ≠ w → (u ∈ s'.kept.map Prod.fst ↔ u ∈ s.kept.map Prod.fst)) := by
  obtain ⟨extra, hperm, hextra⟩ := h.perm
  have hold : ∀ p ∈ s.kept, p.1 ≠ w := fun p hp => by
    rintro rfl
    exact hnew (List.mem_map.mpr ⟨p, hp, rfl⟩)
  have hmem : ∀ p, p ∈ s'.kept ↔ p ∈ extra ∨ p ∈ s.kept := fun p => by
    rw [hperm.mem_iff, List.mem_append]
  have hkey : ∀ u, u ∈ s'.kept.map Prod.fst ↔ u ∈ extra.map Prod.fst ∨ u ∈ s.kept.map Prod.fst := fun u => by
    rw [(hperm.map Prod.fst).mem_iff, List.map_append, List.mem_append]
  have hsame : ∀ p ∈ s.kept, p.1 < writes ∧ p.2 <+: datas p.1 ∧ took p.1 = p.2.length := fun p hp => by
    obtain ⟨hlt, hchunk, hlen⟩ := hs.kept.2 p hp
    rw [(hother p.1 (hold p hp)).1, (hother p.1 (hold p hp)).2]
    exact ⟨Nat.lt_of_lt_of_le hlt hle, hchunk, hlen⟩
  have hkeys : ∀ u ∈ extra.map Prod.fst, u = w := fun u hu => by
    rcases hextra with ⟨rfl, -⟩ | ⟨chunk, rfl, -, -⟩
    · cases hu
    · exact List.mem_singleton.mp hu
  refine ⟨⟨?_, fun p hp => ?_⟩, fun p hp hin => ?_, fun u hu => ?_, fun u hu => ?_⟩
  · rw [(hperm.map Prod.fst).nodup_iff, List.map_append]
    refine List.nodup_append.mpr ⟨?_, hs.kept.1, fun a ha b hb => ?_⟩
    · rcases hextra with ⟨rfl, -⟩ | ⟨chunk, rfl, -, -⟩
      · exact List.nodup_nil
      · exact List.pairwise_singleton _ _
    · rw [hkeys a ha]
      rintro rfl
      exact hnew hb
  · rcases (hmem p).mp hp with hp | hp
    · rcases hextra with ⟨rfl, -⟩ | ⟨chunk, rfl, hchunk, hn⟩
      · cases hp
      · rw [List.mem_singleton.mp hp, hdata, htook]
        exact ⟨hw, hchunk, hn⟩
    · exact hsame p hp
  · rcases h.whole p hp with hp | rfl
    · rw [(hother p.1 (hold p (List.mem_append_right _ hp))).1]
      exact hs.whole p hp
    · exact hdata.symm
  · by_cases huw : u = w
    · subst huw
      rcases hextra with ⟨-, rfl⟩ | ⟨chunk, rfl, -, -⟩
      · exact htook
      · exact absurd ((hkey u).mpr (Or.inl (List.mem_singleton_self _))) hu
    · rw [(hother u huw).2]
      exact hs.rest u fun hin => hu ((hkey u).mpr (Or.inr hin))
  · rw [hkey u]
    exact or_iff_right fun hin => hu (hkeys u hin)

theorem takes_nothing (s : State α) (w : WriteId) (data : List α) : s.Takes s w data 0 :=
  ⟨⟨[], .refl _, Or.inl ⟨rfl, rfl⟩⟩, fun _ hp => Or.inl hp⟩

theorem takes_accept (s : State α) (w : WriteId) {data chunk : List α} (h : chunk <+: data) :
    s.Takes (s.accept w chunk) w data chunk.length := by
  refine ⟨⟨[(w, chunk)], ?_, Or.inr ⟨chunk, rfl, h, rfl⟩⟩, fun _ hp => Or.inl hp⟩
  rw [kept, kept, accept, List.append_assoc]
  exact List.perm_middle

/-- A waiting write is served. -/
theorem Writes.serve (h : s.Writes) {w : WriteId} {c : CoroId} (hc : (s.writer w).coro = some c) {n : Nat}
    {accepted reclaimed : List (WriteId × List α)}
    (htakes : s.Takes { s with accepted, reclaimed } w (s.data w) n) :
    ({ s with
      writer := Function.update s.writer w ⟨none, n, none⟩
      took := Function.update s.took w n
      sched := s.sched.wake c
      accepted := accepted
      reclaimed := reclaimed } : State α).Writes := by
  obtain ⟨hstate, hvalue, hkept, -⟩ := h.live w c hc
  obtain ⟨hkept', hwhole, hrest, hkey⟩ := htakes.account h hkept (Nat.le_refl _) (h.waits c w hstate).1
    s.data (Function.update s.took w n) rfl (Function.update_self ..)
    (fun u hu => ⟨rfl, Function.update_of_ne hu _ _⟩)
  constructor
  · intro u d hd
    dsimp only at hd ⊢
    by_cases hu : u = w
    · subst hu
      rw [Function.update_self] at hd
      cases hd
    · rw [Function.update_of_ne hu] at hd ⊢
      obtain ⟨hstate', hvalue', hkept'', hready'⟩ := h.live u d hd
      have hne : d ≠ c := by
        rintro rfl
        rw [hstate] at hstate'
        cases hstate'
        exact hu rfl
      simp only [Scheduler.wake_state, Scheduler.wake_interrupted, Scheduler.wake_ready, hne,
        decide_false, Bool.false_or]
      exact ⟨hstate', hvalue', fun hin => hkept'' ((hkey u hu).mp hin), hready'⟩
  · intro u hu
    dsimp only at hu ⊢
    by_cases huw : u = w
    · subst huw
      rw [Function.update_self]
    · rw [Function.update_of_ne huw] at hu ⊢
      exact h.dead u hu
  · intro d u hd
    dsimp only at hd ⊢
    rw [Scheduler.wake_state] at hd
    obtain ⟨hlt, hres, hplace⟩ := h.waits d u hd
    refine ⟨hlt, hres, ?_⟩
    by_cases hu : u = w
    · subst hu
      cases h.unique _ _ _ hstate hd
      simp only [Function.update_self, Scheduler.wake_ready, decide_true, Bool.true_or, true_and]
      exact Or.inr trivial
    · simp only [Function.update_of_ne hu, Scheduler.wake_ready, Bool.or_eq_true]
      exact hplace.imp id fun ⟨hnone, hready, hv⟩ => ⟨hnone, Or.inr hready, hv⟩
  · intro d d' u hd hd'
    rw [Scheduler.wake_state] at hd hd'
    exact h.unique d d' u hd hd'
  · refine ⟨h.results.1, fun p hp => ⟨(h.results.2 p hp).1, ?_⟩⟩
    dsimp only
    rw [Function.update_of_ne]
    · exact (h.results.2 p hp).2
    · rintro rfl
      exact (h.waits c _ hstate).2.1 (List.mem_map.mpr ⟨p, hp, rfl⟩)
  · intro u hu
    refine (h.all u hu).imp id fun ⟨d, hd⟩ => ⟨d, ?_⟩
    rw [Scheduler.wake_state]
    exact hd
  · exact hkept'
  · exact fun p hp => hwhole p hp (List.mem_append_right _ hp)
  · exact hrest

/-- Nothing was taken of a write that did not begin. -/
theorem Writes.not_kept (h : s.Writes) : s.writes ∉ s.kept.map Prod.fst := fun hmem => by
  obtain ⟨p, hp, heq⟩ := List.mem_map.mp hmem
  exact Nat.ne_of_lt (h.kept.2 p hp).1 heq

theorem Writes.not_returned (h : s.Writes) : s.writes ∉ s.results.map Prod.fst := fun hmem => by
  obtain ⟨p, hp, heq⟩ := List.mem_map.mp hmem
  exact Nat.ne_of_lt (h.results.2 p hp).1 heq

/-- A write returns without waiting, with what was taken of it, or raises. -/
theorem Writes.record (h : s.Writes) {data : List α} {n : Nat} (result : Option Nat)
    (hresult : result.getD 0 = n) {accepted : List (WriteId × List α)} (writer : WriteId → Writer α)
    (hwriter : ∀ w, writer w = s.writer w ∨ w = s.writes ∧ writer w = ⟨none, 0, none⟩)
    (htakes : s.Takes { s with accepted } s.writes data n) :
    ({ s with
      writes := s.writes + 1
      data := Function.update s.data s.writes data
      took := Function.update s.took s.writes n
      results := s.results ++ [(s.writes, result)]
      writer := writer
      accepted := accepted } : State α).Writes := by
  have hlive : ∀ w c, (writer w).coro = some c → writer w = s.writer w := fun w c hc => by
    rcases hwriter w with hw | ⟨-, hw⟩
    · exact hw
    · rw [hw] at hc
      cases hc
  have hwaits : ∀ c w, (s.sched.coros c).state = .suspend (.write w) →
      w ≠ s.writes ∧ writer w = s.writer w := fun c w hc => by
    have hne := Nat.ne_of_lt (h.waits c w hc).1
    exact ⟨hne, (hwriter w).elim id fun hw => absurd hw.1 hne⟩
  obtain ⟨hkept', hwhole, hrest, hkey⟩ := htakes.account h h.not_kept (Nat.le_succ _) (Nat.lt_succ_self _)
    (Function.update s.data s.writes data) (Function.update s.took s.writes n)
    (Function.update_self ..) (Function.update_self ..)
    (fun u hu => ⟨Function.update_of_ne hu _ _, Function.update_of_ne hu _ _⟩)
  constructor
  · intro w c hc
    dsimp only at hc ⊢
    have heq := hlive w c hc
    rw [heq] at hc ⊢
    obtain ⟨hstate, hvalue, hkept, hready⟩ := h.live w c hc
    have hne := (hwaits c w hstate).1
    rw [Function.update_of_ne hne]
    exact ⟨hstate, hvalue, fun hin => hkept ((hkey w hne).mp hin), hready⟩
  · intro w hw
    dsimp only at hw ⊢
    rcases hwriter w with heq | ⟨-, heq⟩
    · rw [heq] at hw ⊢
      exact h.dead w hw
    · rw [heq]
  · intro c w hc
    obtain ⟨hlt, hres, hplace⟩ := h.waits c w hc
    obtain ⟨hne, heq⟩ := hwaits c w hc
    dsimp only
    rw [heq, Function.update_of_ne hne]
    refine ⟨Nat.lt_succ_of_lt hlt, ?_, hplace⟩
    rw [List.map_append, List.mem_append, List.map_singleton, List.mem_singleton]
    exact fun hmem => hmem.elim hres hne
  · exact h.unique
  · constructor
    · rw [List.map_append, List.map_singleton]
      refine List.nodup_append.mpr ⟨h.results.1, List.pairwise_singleton _ _, fun a ha b hb => ?_⟩
      rw [List.mem_singleton.mp hb]
      rintro rfl
      exact h.not_returned ha
    · intro p hp
      rcases List.mem_append.mp hp with hp | hp
      · obtain ⟨hlt, hn⟩ := h.results.2 p hp
        dsimp only
        rw [Function.update_of_ne (Nat.ne_of_lt hlt)]
        exact ⟨Nat.lt_succ_of_lt hlt, hn⟩
      · rw [List.mem_singleton.mp hp]
        dsimp only
        rw [Function.update_self]
        exact ⟨Nat.lt_succ_self _, hresult⟩
  · intro w hw
    dsimp only
    rw [List.map_append, List.mem_append, List.map_singleton, List.mem_singleton]
    rcases Nat.lt_succ_iff_lt_or_eq.mp hw with hw | rfl
    · exact (h.all w hw).imp Or.inl id
    · exact Or.inl (Or.inr rfl)
  · exact hkept'
  · exact fun p hp => hwhole p hp (List.mem_append_right _ hp)
  · exact hrest

/-- A coroutine starts to wait for a reader. -/
theorem Writes.wait (h : s.Writes) {c : CoroId} (hrun : (s.sched.coros c).state = .running)
    (hready : (s.sched.coros c).ready = false) (data : List α) :
    ({ s with
      writes := s.writes + 1
      data := Function.update s.data s.writes data
      took := Function.update s.took s.writes 0
      writer := Function.update s.writer s.writes ⟨some data, 0, some c⟩
      sched := s.sched.suspend c (.write s.writes) } : State α).Writes := by
  have hne : ∀ d w, (s.sched.coros d).state = .suspend (.write w) → w ≠ s.writes := fun d w hd =>
    Nat.ne_of_lt (h.waits d w hd).1
  have hother : ∀ d, d ≠ c → (s.sched.suspend c (.write s.writes)).coros d = s.sched.coros d := fun d hd => by
    simp only [Scheduler.suspend, Scheduler.set, Function.update_of_ne hd]
  have hself : (s.sched.suspend c (.write s.writes)).coros c =
      { s.sched.coros c with state := .suspend (.write s.writes) } := by
    simp only [Scheduler.suspend, Scheduler.set, Function.update_self]
  have hsleeps : ∀ d w, ((s.sched.suspend c (.write s.writes)).coros d).state = .suspend (.write w) →
      d = c ∧ w = s.writes ∨ d ≠ c ∧ (s.sched.coros d).state = .suspend (.write w) := fun d w hd => by
    by_cases hdc : d = c
    · subst hdc
      rw [hself] at hd
      cases hd
      exact Or.inl ⟨rfl, rfl⟩
    · rw [hother d hdc] at hd
      exact Or.inr ⟨hdc, hd⟩
  have hnotc : ∀ d w, (s.sched.coros d).state = .suspend (.write w) → d ≠ c := fun d w hd => by
    rintro rfl
    rw [hrun] at hd
    cases hd
  obtain ⟨hkept', hwhole, hrest, -⟩ := (s.takes_nothing s.writes data).account h h.not_kept (Nat.le_succ _)
    (Nat.lt_succ_self _) (Function.update s.data s.writes data) (Function.update s.took s.writes 0)
    (Function.update_self ..) (Function.update_self ..)
    (fun u hu => ⟨Function.update_of_ne hu _ _, Function.update_of_ne hu _ _⟩)
  constructor
  · intro w d hd
    dsimp only at hd ⊢
    by_cases hw : w = s.writes
    · subst hw
      rw [Function.update_self] at hd ⊢
      cases hd
      rw [hself, Function.update_self]
      refine ⟨rfl, rfl, h.not_kept, fun hr => ?_⟩
      dsimp only at hr
      rw [hready] at hr
      cases hr
    · rw [Function.update_of_ne hw] at hd ⊢
      have hlive := h.live w d hd
      rw [hother d (hnotc d w hlive.1), Function.update_of_ne hw]
      exact hlive
  · intro w hw
    dsimp only at hw ⊢
    by_cases hw' : w = s.writes
    · subst hw'
      rw [Function.update_self] at hw
      cases hw
    · rw [Function.update_of_ne hw'] at hw ⊢
      exact h.dead w hw
  · intro d w hd
    dsimp only at hd ⊢
    rcases hsleeps d w hd with ⟨rfl, rfl⟩ | ⟨hdc, hold⟩
    · exact ⟨Nat.lt_succ_self _, h.not_returned, Or.inl (by rw [Function.update_self])⟩
    · obtain ⟨hlt, hres, hplace⟩ := h.waits d w hold
      rw [hother d hdc, Function.update_of_ne (hne d w hold), Function.update_of_ne (hne d w hold)]
      exact ⟨Nat.lt_succ_of_lt hlt, hres, hplace⟩
  · intro d d' w hd hd'
    rcases hsleeps d w hd with ⟨rfl, rfl⟩ | ⟨-, hold⟩
    · rcases hsleeps d' _ hd' with ⟨rfl, -⟩ | ⟨-, hold'⟩
      · rfl
      · exact absurd rfl (hne d' _ hold')
    · rcases hsleeps d' w hd' with ⟨rfl, rfl⟩ | ⟨-, hold'⟩
      · exact absurd rfl (hne d _ hold)
      · exact h.unique d d' w hold hold'
  · refine ⟨h.results.1, fun p hp => ?_⟩
    obtain ⟨hlt, hn⟩ := h.results.2 p hp
    dsimp only
    rw [Function.update_of_ne (Nat.ne_of_lt hlt)]
    exact ⟨Nat.lt_succ_of_lt hlt, hn⟩
  · intro w hw
    dsimp only
    rcases Nat.lt_succ_iff_lt_or_eq.mp hw with hw | rfl
    · refine (h.all w hw).imp id (Exists.imp fun d hd => ?_)
      rw [hother d (hnotc d w hd)]
      exact hd
    · exact Or.inr ⟨c, by rw [hself]⟩
  · exact hkept'
  · exact fun p hp => hwhole p hp (List.mem_append_right _ hp)
  · exact hrest

/-- A write that waited goes on: it returns the number of values that were taken, or
raises where none were. -/
theorem Writes.leave (h : s.Writes) {c : CoroId} {w : WriteId}
    (hc : (s.sched.coros c).state = .suspend (.write w)) {sched : Scheduler Waits}
    (hother : ∀ d, d ≠ c → sched.coros d = s.sched.coros d)
    (hnew : ∀ u, (sched.coros c).state ≠ .suspend (.write u)) {n : Option Nat}
    (hn : n.getD 0 = s.took w) :
    ({ s with
      sched := sched
      writer := Function.update s.writer w ⟨none, (s.writer w).accepted, none⟩
      results := s.results ++ [(w, n)] } : State α).Writes := by
  obtain ⟨hlt, hres, -⟩ := h.waits c w hc
  have hnotc : ∀ d u, (sched.coros d).state = .suspend (.write u) → d ≠ c := fun d u hd => by
    rintro rfl
    exact hnew u hd
  have hnew' : ∀ d u, d ≠ c → (s.sched.coros d).state = .suspend (.write u) → u ≠ w := fun d u hdc hd => by
    rintro rfl
    exact hdc (h.unique d c u hd hc)
  have hkeys : ∀ u, u ∈ (s.results ++ [(w, n)]).map Prod.fst ↔ u ∈ s.results.map Prod.fst ∨ u = w := fun u => by
    rw [List.map_append, List.mem_append, List.map_singleton, List.mem_singleton]
  constructor
  · intro u d hd
    dsimp only at hd ⊢
    by_cases hu : u = w
    · subst hu
      rw [Function.update_self] at hd
      cases hd
    · rw [Function.update_of_ne hu] at hd ⊢
      have hlive := h.live u d hd
      have hdc : d ≠ c := by
        rintro rfl
        rw [hc] at hlive
        cases hlive.1
        exact hu rfl
      rw [hother d hdc]
      exact hlive
  · intro u hu
    dsimp only at hu ⊢
    by_cases huw : u = w
    · subst huw
      rw [Function.update_self]
    · rw [Function.update_of_ne huw] at hu ⊢
      exact h.dead u hu
  · intro d u hd
    have hdc := hnotc d u hd
    dsimp only at hd ⊢
    rw [hother d hdc] at hd ⊢
    have hu := hnew' d u hdc hd
    obtain ⟨hlt', hres', hplace⟩ := h.waits d u hd
    rw [Function.update_of_ne hu, hkeys]
    exact ⟨hlt', fun hin => hin.elim hres' hu, hplace⟩
  · intro d d' u hd hd'
    rw [hother d (hnotc d u hd)] at hd
    rw [hother d' (hnotc d' u hd')] at hd'
    exact h.unique d d' u hd hd'
  · refine ⟨?_, fun p hp => ?_⟩
    · rw [List.map_append, List.map_singleton]
      refine List.nodup_append.mpr ⟨h.results.1, List.pairwise_singleton _ _, fun a ha b hb => ?_⟩
      rw [List.mem_singleton.mp hb]
      rintro rfl
      exact hres ha
    · rcases List.mem_append.mp hp with hp | hp
      · exact h.results.2 p hp
      · rw [List.mem_singleton.mp hp]
        exact ⟨hlt, hn⟩
  · intro u hu
    dsimp only
    rw [hkeys]
    by_cases huw : u = w
    · exact Or.inl (Or.inr huw)
    · refine (h.all u hu).imp Or.inl fun ⟨d, hd⟩ => ⟨d, ?_⟩
      rw [hother]
      · exact hd
      · rintro rfl
        rw [hc] at hd
        cases hd
        exact huw rfl
  · exact h.kept
  · exact h.whole
  · exact h.rest

end State

end StreamPipe

end Moonbit

end WitBindgen
