import WitBindgen.Rust.Accounts

/-!
# Exported resources are disposed of once

In every state that a component with an exported resource gets into: nothing it
may do next fails, each instance's value, box and handles are there or were
disposed of once, and whatever gives access to a value gives access to the value
of its instance.
-/

namespace WitBindgen.Rust

/-- Nobody has a handle, and nothing runs. -/
structure State.Quiet (s : State) : Prop where
  running : s.running = .user
  stack : s.stack = []
  things : ∀ w x, s.things w = some x → x.handle = taken
  lowered : ∀ h, s.lowered h = false
  abroad : ∀ rep, s.abroad rep = none

/-- Everything is there, or was disposed of once. -/
structure State.Disposed (s : State) : Prop where
  /-- Values are in their box, on their way out, or dropped or returned once. -/
  values : ∀ i < s.instances,
    s.Boxed i ∧ s.dropped.count i + s.returned.count i = 0 ∨
    ¬ s.Boxed i ∧ s.leaving.count i = 1 ∧ s.dropped.count i + s.returned.count i = 0 ∨
    ¬ s.Boxed i ∧ s.leaving.count i = 0 ∧ s.dropped.count i + s.returned.count i = 1
  boxes : ∀ i < s.instances,
    s.Allocated i ∧ s.freed.count i = 0 ∨ ¬ s.Allocated i ∧ s.freed.count i = 1
  /-- A handle is in the table, or was dropped or given away, one of them once. -/
  handles : ∀ i < s.entries,
    s.Held i ∧ s.resourceDrops.count i + s.givenAway.count i = 0 ∨
    ¬ s.Held i ∧ s.resourceDrops.count i + s.givenAway.count i = 1
  /-- A handle in the table has an owner that will drop it or hand it over. -/
  owners : ∀ h e, s.table h = some e →
    s.running = .drop h ∨ s.lowered h = true ∨ ∃ w x, s.things w = some x ∧ x.handle = h
  /-- In the end nothing is left. -/
  quiet : s.Quiet → (∀ h, s.table h = none) ∧ ∀ i < s.instances,
    s.dropped.count i + s.returned.count i = 1 ∧ s.freed.count i = 1

variable {s : State}

theorem Inv.quiet (h : Inv s) (hq : s.Quiet) :
    (∀ handle, s.table handle = none) ∧ ∀ rep, s.cells rep = none := by
  have htable : ∀ handle, s.table handle = none := by
    intro handle
    cases he : s.table handle with
    | none => rfl
    | some e =>
      rcases h.wired.held handle e he with hd | hl | ⟨w, x, hx, hh⟩
      · cases hq.running.symm.trans hd
      · cases (hq.lowered handle).symm.trans hl
      · exact absurd (hh.symm.trans (hq.things w x hx)) (h.wired.ne_taken he)
  refine ⟨htable, fun rep => ?_⟩
  cases hc : s.cells rep with
  | none => rfl
  | some c =>
    rcases h.wired.homed rep c hc with ha | hd | ⟨handle, e, he, -⟩
    · exact absurd (hq.abroad rep) ha
    · cases hq.running.symm.trans hd
    · cases (htable handle).symm.trans he

theorem Inv.disposed (h : Inv s) : s.Disposed where
  values i hi := by
    by_cases hb : s.Boxed i
    · have hout := (h.counted.values.kept i hb).2
      rw [State.out] at hout
      exact Or.inl ⟨hb, by omega⟩
    · have hout := h.counted.values.gone i hi hb
      rw [State.out] at hout
      by_cases hl : s.leaving.count i = 0
      · exact Or.inr (Or.inr ⟨hb, hl, by omega⟩)
      · exact Or.inr (Or.inl ⟨hb, by omega, by omega⟩)
  boxes i hi := by
    by_cases ha : s.Allocated i
    · exact Or.inl ⟨ha, (h.counted.boxes.kept i ha).2⟩
    · exact Or.inr ⟨ha, h.counted.boxes.gone i hi ha⟩
  handles i hi := by
    by_cases hh : s.Held i
    · exact Or.inl ⟨hh, (h.counted.handles.kept i hh).2⟩
    · exact Or.inr ⟨hh, h.counted.handles.gone i hi hh⟩
  owners := h.wired.held
  quiet hq := by
    obtain ⟨htable, hcells⟩ := h.quiet hq
    refine ⟨htable, fun i hi => ⟨?_, ?_⟩⟩
    · have hout := h.counted.values.gone i hi fun hx => by
        obtain ⟨rep, c, hc, _⟩ := hx
        cases (hcells rep).symm.trans hc
      simpa [State.out, State.leaving, hq.running, hq.stack, Running.values] using hout
    · refine h.counted.boxes.gone i hi fun hx => ?_
      obtain ⟨rep, c, hc, _⟩ := hx
      cases (hcells rep).symm.trans hc

/-- An exported resource: no fault, everything disposed of once, and `get`,
`get_mut`, a borrow's `get` and the references they give reach the right value. -/
theorem exported_resource_sound (h : resources.Reachable s) :
    (∀ e, resources.allowed s e → ∃ s', resources.exec s e = .ok s') ∧ s.Disposed ∧
      (∀ w x, s.things w = some x → x.handle ≠ taken →
        (s.resourceRep x.handle >>= s.repAsRef) = .ok x.inst) ∧
      (∀ b x, s.borrows b = some x → s.repAsRef x.rep = .ok x.inst) ∧
      ∀ r y, s.refs r = some y → s.deref r = .ok y.inst := by
  have hinv := Inv.of_reachable h
  refine ⟨fun e he => ?_, hinv.disposed, fun w x hx hne => ?_, fun b x hx => ?_,
    fun r y hy => hinv.deref hy⟩
  · obtain ⟨s', hok, -⟩ := hinv.step he
    exact ⟨s', hok⟩
  · obtain ⟨-, -, e, he, hfull⟩ := hinv.wired.thing w x hx hne
    rw [resourceRep_eq he, ok_bind, repAsRef_full hfull]
  · exact repAsRef_full (hinv.wired.abroad x.rep x.inst (hinv.wired.borrow b x hx))

/-- `Thing::new` and `into_inner`, up to the return of the value. -/
theorem exported_resource_sound_into_inner : ∃ s, resources.Reachable s ∧ s.returned = [0] ∧
    s.freed = [0] ∧ s.Disposed := by
  have free : State.initial.FreeHandle 1 := ⟨rfl, by decide, by decide⟩
  have hnew : resources.Reachable (State.initial.new 0 8 1) :=
    .step _ _ (.new 0 8 1) (.init _ rfl) ⟨rfl, rfl, free⟩ rfl
  have hinner := hnew.step _ _ (Event.intoInner 0) ⟨⟨_, rfl, by decide⟩, nofun⟩ rfl
  have hdrop := hinner.step _ _ Event.resume rfl rfl
  have hdtor := hdrop.step _ _ Event.resume rfl rfl
  have hreturn := hdtor.step _ _ Event.resume rfl rfl
  exact ⟨_, hreturn, rfl, rfl, (exported_resource_sound hreturn).2.1⟩

end WitBindgen.Rust
