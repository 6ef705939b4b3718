import WitBindgen.Rust.Resource
import Mathlib.Data.List.Basic

/-!
# What becomes of the instances of an exported resource

Two invariants carry the result. A box that is allocated belongs to one handle,
of the component or of another one, or to the destructor that runs; what a
`Thing`, a borrow or a reference points at is the box of its instance, with the
value in it. And each value, each box and each handle is accounted for: it is
still there, or it was disposed of once.
-/

namespace WitBindgen.Rust

/-! ## Maps -/

theorem put_self {α : Type} (f : Nat → α) (k : Nat) (x : α) : put f k x k = x := if_pos rfl

theorem put_ne {α : Type} {f : Nat → α} {k j : Nat} {x : α} (h : j ≠ k) : put f k x j = f j :=
  if_neg h

theorem put_cases {α : Type} {f : Nat → α} {k j : Nat} {x y : α} (h : put f k x j = y) :
    j = k ∧ x = y ∨ j ≠ k ∧ f j = y := by
  by_cases hj : j = k
  · exact Or.inl ⟨hj, by rwa [hj, put_self] at h⟩
  · exact Or.inr ⟨hj, by rwa [put_ne hj] at h⟩

section Put

variable {α : Type} {f : Nat → Option α} {k : Nat} {x₀ : α} {g : α → Nat}

/-- Entries are told apart by `g`. -/
def Apart (f : Nat → Option α) (g : α → Nat) : Prop :=
  ∀ j j' x x', f j = some x → f j' = some x' → g x = g x' → j = j'

theorem Apart.put_some (h : Apart f g) (hfresh : ∀ j x, f j = some x → g x ≠ g x₀) :
    Apart (put f k (some x₀)) g := by
  intro j j' x x' hx hx' heq
  rcases put_cases hx with ⟨hj, g₁⟩ | ⟨-, g₁⟩ <;> rcases put_cases hx' with ⟨hj', g₂⟩ | ⟨-, g₂⟩
  · exact hj.trans hj'.symm
  · cases g₁
    exact absurd heq.symm (hfresh j' x' g₂)
  · cases g₂
    exact absurd heq (hfresh j x g₁)
  · exact h j j' x x' g₁ g₂ heq

theorem Apart.put_none (h : Apart f g) : Apart (put f k none) g := by
  intro j j' x x' hx hx'
  rcases put_cases hx with ⟨-, heq⟩ | ⟨-, hx⟩
  · cases heq
  rcases put_cases hx' with ⟨-, heq⟩ | ⟨-, hx'⟩
  · cases heq
  exact h j j' x x' hx hx'

theorem exists_put_some {P : α → Prop} (hk : f k = none) :
    (∃ j x, put f k (some x₀) j = some x ∧ P x) ↔ (∃ j x, f j = some x ∧ P x) ∨ P x₀ := by
  constructor
  · rintro ⟨j, x, hx, hp⟩
    rcases put_cases hx with ⟨-, heq⟩ | ⟨-, hx⟩
    · cases heq
      exact Or.inr hp
    · exact Or.inl ⟨j, x, hx, hp⟩
  · rintro (⟨j, x, hx, hp⟩ | hp)
    · refine ⟨j, x, (put_ne ?_).trans hx, hp⟩
      rintro rfl
      cases hk.symm.trans hx
    · exact ⟨k, x₀, put_self .., hp⟩

/-- What an entry alone has goes with the entry. -/
theorem exists_put_none {i : Nat} (h : Apart f g) (hk : f k = some x₀) :
    (∃ j x, put f k none j = some x ∧ g x = i) ↔ (∃ j x, f j = some x ∧ g x = i) ∧ i ≠ g x₀ := by
  constructor
  · rintro ⟨j, x, hx, hp⟩
    rcases put_cases hx with ⟨-, heq⟩ | ⟨hj, hx⟩
    · cases heq
    · exact ⟨⟨j, x, hx, hp⟩, fun heq => hj (h j k x x₀ hx hk (hp.trans heq))⟩
  · rintro ⟨⟨j, x, hx, hp⟩, hne⟩
    refine ⟨j, x, (put_ne ?_).trans hx, hp⟩
    rintro rfl
    cases hk.symm.trans hx
    exact hne hp.symm

end Put

/-! ## What points where -/

/-- The box at `rep` holds the value of instance `i`. -/
def State.Full (s : State) (rep i : Nat) : Prop := s.cells rep = some ⟨i, some i⟩

/-- `into_inner` waits for a box without value to go. -/
def State.Emptied (s : State) : Prop :=
  match s.running with
  | .user => False
  | .drop h => ∀ e c, s.table h = some e → s.cells e.rep = some c → c.value = none
  | .dtor rep => ∀ c, s.cells rep = some c → c.value = none
  | .scope v => v = none

structure Wired (s : State) : Prop where
  entry : ∀ h e, s.table h = some e →
    h < maxHandles ∧ s.abroad e.rep = none ∧ ∃ v, s.cells e.rep = some ⟨e.inst, v⟩
  entry_inj : Apart s.table Entry.rep
  thing : ∀ w x, s.things w = some x → x.handle ≠ taken →
    s.lowered x.handle = false ∧ s.running ≠ .drop x.handle ∧
      ∃ e, s.table x.handle = some e ∧ s.Full e.rep x.inst
  thing_inj : ∀ w w' x x', s.things w = some x → s.things w' = some x' → x.handle ≠ taken →
    x.handle = x'.handle → w = w'
  lowered : ∀ h, s.lowered h = true →
    s.running ≠ .drop h ∧ ∃ e, s.table h = some e ∧ s.Full e.rep e.inst
  held : ∀ h e, s.table h = some e →
    s.running = .drop h ∨ s.lowered h = true ∨ ∃ w x, s.things w = some x ∧ x.handle = h
  abroad : ∀ rep i, s.abroad rep = some i → s.Full rep i
  drop : ∀ h, s.running = .drop h → ∃ e, s.table h = some e
  dtor : ∀ rep, s.running = .dtor rep →
    s.abroad rep = none ∧ (∀ h e, s.table h = some e → e.rep ≠ rep) ∧ s.cells rep ≠ none
  borrow : ∀ b x, s.borrows b = some x → s.abroad x.rep = some x.inst
  ref_thing : ∀ r y w, s.refs r = some y → y.source = .thing w →
    ∃ x e, s.things w = some x ∧ x.handle ≠ taken ∧ s.table x.handle = some e ∧ e.rep = y.rep ∧
      x.inst = y.inst
  ref_borrow : ∀ r y b, s.refs r = some y → y.source = .borrow b →
    ∃ x, s.borrows b = some x ∧ x.rep = y.rep ∧ x.inst = y.inst
  homed : ∀ rep c, s.cells rep = some c →
    s.abroad rep ≠ none ∨ s.running = .dtor rep ∨ ∃ h e, s.table h = some e ∧ e.rep = rep
  waiting : ∀ v, .intoInner v ∈ s.stack → s.Emptied
  below : ∀ v, .intoInner v ∉ s.stack.tail

theorem wired_initial : Wired State.initial := by
  constructor <;> simp [State.initial, Apart]

variable {s : State}

theorem FreeHandle.ne_taken {h : Nat} (hh : s.FreeHandle h) : h ≠ taken := by
  rintro rfl
  exact absurd hh.2.2 (by decide)

/-! ## The user's turn -/

section Turn

variable (h : Wired s) (hrun : s.running = .user)
include h

include hrun in
/-- No `into_inner` waits while the user's code runs. -/
theorem Wired.frames (v : Nat) : .intoInner v ∉ s.stack := by
  intro hv
  have hempty := h.waiting v hv
  rw [State.Emptied, hrun] at hempty
  exact hempty

omit hrun in
/-- What owns a handle of the table is not the owner of a free one. -/
theorem Wired.free_ne {handle w : Nat} {x : Thing} (hfree : s.table handle = none)
    (hx : s.things w = some x) (hne : x.handle ≠ taken) : x.handle ≠ handle := by
  rintro rfl
  obtain ⟨-, -, e, he, -⟩ := h.thing w x hx hne
  cases hfree.symm.trans he

omit hrun in
theorem Wired.free_lowered {handle : Nat} (hfree : s.table handle = none) :
    s.lowered handle = false := by
  cases hl : s.lowered handle with
  | false => rfl
  | true =>
    obtain ⟨-, e, he, -⟩ := h.lowered handle hl
    cases hfree.symm.trans he

omit hrun in
/-- A `Thing` for a handle that no other one has. -/
theorem Wired.putThing_inj {handle w i : Nat}
    (howned : ∀ w x, s.things w = some x → x.handle ≠ taken → x.handle ≠ handle) :
    ∀ w₁ w₂ x₁ x₂, put s.things w (some ⟨handle, i⟩) w₁ = some x₁ →
      put s.things w (some ⟨handle, i⟩) w₂ = some x₂ → x₁.handle ≠ taken →
      x₁.handle = x₂.handle → w₁ = w₂ := by
  intro w₁ w₂ x₁ x₂ h₁ h₂ hne heq
  rcases put_cases h₁ with ⟨hw₁, g₁⟩ | ⟨-, g₁⟩ <;> rcases put_cases h₂ with ⟨hw₂, g₂⟩ | ⟨-, g₂⟩
  · exact hw₁.trans hw₂.symm
  · cases g₁
    exact absurd heq.symm (howned w₂ x₂ g₂ (heq ▸ hne))
  · cases g₂
    exact absurd heq (howned w₁ x₁ g₁ hne)
  · exact h.thing_inj w₁ w₂ x₁ x₂ g₁ g₂ hne heq

include hrun in
theorem Wired.new {w rep handle : Nat} (hw : s.things w = none) (hrep : s.cells rep = none)
    (hh : s.FreeHandle handle) : Wired (s.new w rep handle) := by
  obtain ⟨hfree, -, hlt⟩ := hh
  have hallocated : ∀ {rep' c}, s.cells rep' = some c → rep' ≠ rep := by
    rintro rep' c hc rfl
    cases hrep.symm.trans hc
  have full : ∀ {rep' i}, s.Full rep' i →
      put s.cells rep (some ⟨s.instances, some s.instances⟩) rep' = some ⟨i, some i⟩ :=
    fun hfull => (put_ne (hallocated hfull)).trans hfull
  have home : s.abroad rep = none := by
    cases ha : s.abroad rep with
    | none => rfl
    | some i => cases hrep.symm.trans (h.abroad rep i ha)
  have known : ∀ {h' e'}, s.table h' = some e' → h' ≠ handle := by
    rintro h' e' he' rfl
    cases hfree.symm.trans he'
  exact { h with
    entry := by
      intro h' e' he'
      rcases put_cases he' with ⟨rfl, heq⟩ | ⟨-, he'⟩
      · cases heq
        exact ⟨hlt, home, _, put_self ..⟩
      · obtain ⟨hlt', ha, v, hcell⟩ := h.entry h' e' he'
        exact ⟨hlt', ha, v, (put_ne (hallocated hcell)).trans hcell⟩
    entry_inj := h.entry_inj.put_some fun h' e' he' heq => by
      obtain ⟨-, -, v, hcell⟩ := h.entry h' e' he'
      exact hallocated hcell heq
    thing := by
      intro w' x hx hne
      rcases put_cases hx with ⟨-, heq⟩ | ⟨-, hx⟩
      · cases heq
        refine ⟨h.free_lowered hfree, fun heq => ?_, _, put_self .., put_self ..⟩
        cases hrun.symm.trans heq
      · obtain ⟨hl, hr, e, he, hfull⟩ := h.thing w' x hx hne
        exact ⟨hl, hr, e, (put_ne (known he)).trans he, full hfull⟩
    thing_inj := h.putThing_inj fun _ _ => h.free_ne hfree
    lowered := by
      intro h' hl
      obtain ⟨hr, e, he, hfull⟩ := h.lowered h' hl
      exact ⟨hr, e, (put_ne (known he)).trans he, full hfull⟩
    held := by
      intro h' e he
      rcases put_cases he with ⟨hh, -⟩ | ⟨-, he⟩
      · exact Or.inr (Or.inr ⟨w, _, put_self .., hh.symm⟩)
      rcases h.held h' e he with hd | hl | ⟨w', x, hx, hh'⟩
      · exact Or.inl hd
      · exact Or.inr (Or.inl hl)
      · refine Or.inr (Or.inr ⟨w', x, (put_ne ?_).trans hx, hh'⟩)
        rintro rfl
        cases hw.symm.trans hx
    abroad := fun rep' i ha => full (h.abroad rep' i ha)
    drop := fun h' heq => by cases hrun.symm.trans heq
    dtor := fun rep heq => by cases hrun.symm.trans heq
    ref_thing := by
      intro r y w' hy hs
      obtain ⟨x, e, hx, hne, he, hrest⟩ := h.ref_thing r y w' hy hs
      refine ⟨x, e, (put_ne ?_).trans hx, hne, (put_ne (known he)).trans he, hrest⟩
      rintro rfl
      cases hw.symm.trans hx
    homed := by
      intro rep' c hc
      rcases put_cases hc with ⟨hr, -⟩ | ⟨-, hc⟩
      · exact Or.inr (Or.inr ⟨handle, _, put_self .., hr.symm⟩)
      rcases h.homed rep' c hc with ha | hd | ⟨h', e, he, hr⟩
      · exact Or.inl ha
      · exact Or.inr (Or.inl hd)
      · exact Or.inr (Or.inr ⟨h', e, (put_ne (known he)).trans he, hr⟩)
    waiting := fun v hv => absurd hv (h.frames hrun v) }

omit hrun in
/-- A `Thing` that owns a handle: its handle, its box and the value in it. -/
theorem Wired.owns {w : Nat} (hw : s.Owns w) : ∃ x e, s.things w = some x ∧ x.handle ≠ taken ∧
    s.table x.handle = some e ∧ s.Full e.rep x.inst := by
  obtain ⟨x, hx, hne⟩ := hw
  obtain ⟨-, -, e, he, hfull⟩ := h.thing w x hx hne
  exact ⟨x, e, hx, hne, he, hfull⟩

/-- A reference to where its source points. -/
theorem Wired.putRef {r : Nat} {y : Ref}
    (hthing : ∀ w, y.source = .thing w → ∃ x e, s.things w = some x ∧ x.handle ≠ taken ∧
      s.table x.handle = some e ∧ e.rep = y.rep ∧ x.inst = y.inst)
    (hborrow : ∀ b, y.source = .borrow b → ∃ x, s.borrows b = some x ∧ x.rep = y.rep ∧
      x.inst = y.inst) : Wired { s with refs := put s.refs r (some y) } :=
  { h with
    ref_thing := by
      intro r' y' w hy
      rcases put_cases hy with ⟨-, heq⟩ | ⟨-, hy⟩
      · cases heq
        exact hthing w
      · exact h.ref_thing r' y' w hy
    ref_borrow := by
      intro r' y' b hy
      rcases put_cases hy with ⟨-, heq⟩ | ⟨-, hy⟩
      · cases heq
        exact hborrow b
      · exact h.ref_borrow r' y' b hy }

theorem Wired.endRef {r : Nat} : Wired { s with refs := put s.refs r none } :=
  { h with
    ref_thing := by
      intro r' y w hy
      rcases put_cases hy with ⟨-, heq⟩ | ⟨-, hy⟩
      · cases heq
      · exact h.ref_thing r' y w hy
    ref_borrow := by
      intro r' y b hy
      rcases put_cases hy with ⟨-, heq⟩ | ⟨-, hy⟩
      · cases heq
      · exact h.ref_borrow r' y b hy }

theorem Wired.liftBorrow {rep b i : Nat} (ha : s.abroad rep = some i)
    (hb : s.borrows b = none) :
    Wired { s with borrows := put s.borrows b (some ⟨rep, i⟩) } :=
  { h with
    borrow := by
      intro b' x hx
      rcases put_cases hx with ⟨-, heq⟩ | ⟨-, hx⟩
      · cases heq
        exact ha
      · exact h.borrow b' x hx
    ref_borrow := by
      intro r y b' hy hs
      obtain ⟨x, hx, hr, hi⟩ := h.ref_borrow r y b' hy hs
      refine ⟨x, (put_ne ?_).trans hx, hr, hi⟩
      rintro rfl
      cases hb.symm.trans hx }

theorem Wired.endBorrow {b : Nat} (href : s.Unreferenced (.borrow b)) :
    Wired { s with borrows := put s.borrows b none } :=
  { h with
    borrow := by
      intro b' x hx
      rcases put_cases hx with ⟨-, heq⟩ | ⟨-, hx⟩
      · cases heq
      · exact h.borrow b' x hx
    ref_borrow := by
      intro r y b' hy hs
      obtain ⟨x, hx, hr, hi⟩ := h.ref_borrow r y b' hy hs
      refine ⟨x, (put_ne ?_).trans hx, hr, hi⟩
      rintro rfl
      exact href r y hy hs }

/-- A handle that a `Thing` owns is not the sentinel. -/
theorem Wired.ne_taken {handle : Nat} {e : Entry} (he : s.table handle = some e) :
    handle ≠ taken := by
  rintro rfl
  exact absurd (h.entry _ _ he).1 (by decide)

/-- A `Thing` whose handle was taken goes. -/
theorem Wired.forget {w : Nat} {x : Thing} (hx : s.things w = some x) (ht : x.handle = taken)
    (href : s.Unreferenced (.thing w)) : Wired { s with things := put s.things w none } :=
  { h with
    thing := by
      intro w' x' hx' hne
      rcases put_cases hx' with ⟨-, heq⟩ | ⟨-, hx'⟩
      · cases heq
      · exact h.thing w' x' hx' hne
    thing_inj := by
      intro w₁ w₂ x₁ x₂ h₁ h₂
      rcases put_cases h₁ with ⟨-, heq⟩ | ⟨-, h₁⟩
      · cases heq
      rcases put_cases h₂ with ⟨-, heq⟩ | ⟨-, h₂⟩
      · cases heq
      exact h.thing_inj w₁ w₂ x₁ x₂ h₁ h₂
    held := by
      intro handle e he
      rcases h.held handle e he with hd | hl | ⟨w', x', hx', hh⟩
      · exact Or.inl hd
      · exact Or.inr (Or.inl hl)
      · refine Or.inr (Or.inr ⟨w', x', (put_ne ?_).trans hx', hh⟩)
        rintro rfl
        cases hx.symm.trans hx'
        exact h.ne_taken he (hh.symm.trans ht)
    ref_thing := by
      intro r y w' hy hs
      obtain ⟨x', e, hx', hrest⟩ := h.ref_thing r y w' hy hs
      refine ⟨x', e, (put_ne ?_).trans hx', hrest⟩
      rintro rfl
      exact href r y hy hs }

include hrun in
/-- A `Thing` goes that owns a handle: the handle is dropped. -/
theorem Wired.dropHandle {w : Nat} {x : Thing} (hx : s.things w = some x) (hne : x.handle ≠ taken)
    (href : s.Unreferenced (.thing w)) :
    Wired { s with things := put s.things w none, running := .drop x.handle } := by
  obtain ⟨hlow, -, e, he, hfull⟩ := h.thing w x hx hne
  have hframes := h.frames hrun
  have others : ∀ {w' x'}, w' ≠ w → s.things w' = some x' → x'.handle ≠ taken →
      x'.handle ≠ x.handle := by
    intro w' x' hw hx' hne' heq
    exact hw (h.thing_inj w' w x' x hx' hx hne' heq)
  exact { h with
    thing := by
      intro w' x' hx' hne'
      rcases put_cases hx' with ⟨-, heq⟩ | ⟨hw, hx'⟩
      · cases heq
      · obtain ⟨hl, -, hrest⟩ := h.thing w' x' hx' hne'
        exact ⟨hl, fun heq => others hw hx' hne' (Running.drop.inj heq).symm, hrest⟩
    thing_inj := by
      intro w₁ w₂ x₁ x₂ h₁ h₂
      rcases put_cases h₁ with ⟨-, heq⟩ | ⟨-, h₁⟩
      · cases heq
      rcases put_cases h₂ with ⟨-, heq⟩ | ⟨-, h₂⟩
      · cases heq
      exact h.thing_inj w₁ w₂ x₁ x₂ h₁ h₂
    lowered := by
      intro handle hl
      refine ⟨fun heq => ?_, (h.lowered handle hl).2⟩
      cases heq
      cases hlow.symm.trans hl
    held := by
      intro handle e' he'
      rcases h.held handle e' he' with hd | hl | ⟨w', x', hx', hh⟩
      · cases hrun.symm.trans hd
      · exact Or.inr (Or.inl hl)
      · by_cases hw : w' = w
        · subst hw
          cases hx.symm.trans hx'
          exact Or.inl (congrArg Running.drop hh)
        · exact Or.inr (Or.inr ⟨w', x', (put_ne hw).trans hx', hh⟩)
    drop := by
      intro handle heq
      cases heq
      exact ⟨e, he⟩
    dtor := nofun
    ref_thing := by
      intro r y w' hy hs
      obtain ⟨x', e', hx', hrest⟩ := h.ref_thing r y w' hy hs
      refine ⟨x', e', (put_ne ?_).trans hx', hrest⟩
      rintro rfl
      exact href r y hy hs
    homed := by
      intro rep c hc
      rcases h.homed rep c hc with ha | hd | hh
      · exact Or.inl ha
      · cases hrun.symm.trans hd
      · exact Or.inr (Or.inr hh)
    waiting := fun v hv => absurd hv (hframes v) }

/-- What another component owns has no handle here. -/
theorem Wired.abroad_ne {rep handle i : Nat} {e : Entry} (ha : s.abroad rep = some i)
    (he : s.table handle = some e) : e.rep ≠ rep := by
  intro heq
  have ha' := (h.entry handle e he).2.1
  rw [heq, ha] at ha'
  cases ha'

/-- What was lowered has no `Thing`. -/
theorem Wired.lowered_ne {handle w : Nat} {x : Thing} (hlow : s.lowered handle = true)
    (hx : s.things w = some x) (hne : x.handle ≠ taken) : x.handle ≠ handle := by
  intro heq
  have hl := (h.thing w x hx hne).1
  rw [heq, hlow] at hl
  cases hl

/-- The instance of a handle is the one in the box. -/
theorem Wired.full_inst {handle i : Nat} {e : Entry} (he : s.table handle = some e)
    (hfull : s.Full e.rep i) : s.Full e.rep e.inst := by
  obtain ⟨-, -, v, hcell⟩ := h.entry handle e he
  have hsame := Cell.mk.inj (Option.some.inj (hfull.symm.trans hcell))
  rw [← hsame.1]
  exact hfull

include hrun in
theorem Wired.takeHandle {w : Nat} {x : Thing} (hx : s.things w = some x) (hne : x.handle ≠ taken)
    (href : s.Unreferenced (.thing w)) :
    Wired { s with
      things := put s.things w (some { x with handle := taken })
      lowered := put s.lowered x.handle true } := by
  obtain ⟨-, -, e, he, hfull⟩ := h.thing w x hx hne
  exact { h with
    thing := by
      intro w' x' hx' hne'
      rcases put_cases hx' with ⟨-, heq⟩ | ⟨hw, hx'⟩
      · cases heq
        exact absurd rfl hne'
      · obtain ⟨hl, hrest⟩ := h.thing w' x' hx' hne'
        exact ⟨(put_ne fun heq => hw (h.thing_inj w' w x' x hx' hx hne' heq)).trans hl, hrest⟩
    thing_inj := by
      intro w₁ w₂ x₁ x₂ h₁ h₂ hne' heq
      rcases put_cases h₁ with ⟨-, h₁⟩ | ⟨-, h₁⟩
      · cases h₁
        exact absurd rfl hne'
      rcases put_cases h₂ with ⟨-, h₂⟩ | ⟨-, h₂⟩
      · cases h₂
        exact absurd heq hne'
      exact h.thing_inj w₁ w₂ x₁ x₂ h₁ h₂ hne' heq
    lowered := by
      intro handle hl
      rcases put_cases hl with ⟨rfl, -⟩ | ⟨-, hl⟩
      · refine ⟨fun heq => ?_, e, he, h.full_inst he hfull⟩
        cases hrun.symm.trans heq
      · exact h.lowered handle hl
    held := by
      intro handle e' he'
      rcases h.held handle e' he' with hd | hl | ⟨w', x', hx', hh⟩
      · exact Or.inl hd
      · refine Or.inr (Or.inl ?_)
        by_cases heq : handle = x.handle
        · exact (congrArg _ heq).trans (put_self ..)
        · exact (put_ne heq).trans hl
      · by_cases hw : w' = w
        · subst hw
          cases hx.symm.trans hx'
          exact Or.inr (Or.inl ((congrArg _ hh.symm).trans (put_self ..)))
        · exact Or.inr (Or.inr ⟨w', x', (put_ne hw).trans hx', hh⟩)
    ref_thing := by
      intro r y w' hy hs
      obtain ⟨x', e', hx', hrest⟩ := h.ref_thing r y w' hy hs
      refine ⟨x', e', (put_ne ?_).trans hx', hrest⟩
      rintro rfl
      exact href r y hy hs }

include hrun in
/-- What no `Thing` owns any more is the host's. -/
theorem Wired.handOver {handle : Nat} {e : Entry} (hlow : s.lowered handle = true)
    (he : s.table handle = some e) (hfull : s.Full e.rep e.inst) (ids : List Nat) :
    Wired { s with
      table := put s.table handle none
      lowered := put s.lowered handle false
      abroad := put s.abroad e.rep (some e.inst)
      givenAway := ids } := by
  have home := (h.entry handle e he).2.1
  have others : ∀ {h' e'}, h' ≠ handle → s.table h' = some e' → e'.rep ≠ e.rep :=
    fun hne he' heq => hne (h.entry_inj _ _ _ _ he' he heq)
  have owned : ∀ {w x}, s.things w = some x → x.handle ≠ taken → x.handle ≠ handle :=
    h.lowered_ne hlow
  exact { h with
    entry := by
      intro h' e' he'
      rcases put_cases he' with ⟨-, heq⟩ | ⟨hne, he'⟩
      · cases heq
      · obtain ⟨hlt, ha, hcell⟩ := h.entry h' e' he'
        exact ⟨hlt, (put_ne (others hne he')).trans ha, hcell⟩
    entry_inj := h.entry_inj.put_none
    thing := by
      intro w x hx hne
      obtain ⟨hl, hr, e', he', hfull'⟩ := h.thing w x hx hne
      have hh := owned hx hne
      exact ⟨(put_ne hh).trans hl, hr, e', (put_ne hh).trans he', hfull'⟩
    lowered := by
      intro h' hl
      rcases put_cases hl with ⟨-, heq⟩ | ⟨hne, hl⟩
      · cases heq
      · obtain ⟨hr, e', he', hfull'⟩ := h.lowered h' hl
        exact ⟨hr, e', (put_ne hne).trans he', hfull'⟩
    held := by
      intro h' e' he'
      rcases put_cases he' with ⟨-, heq⟩ | ⟨hne, he'⟩
      · cases heq
      · exact (h.held h' e' he').imp_right (Or.imp_left fun hl => (put_ne hne).trans hl)
    abroad := by
      intro rep i ha
      rcases put_cases ha with ⟨rfl, heq⟩ | ⟨-, ha⟩
      · cases heq
        exact hfull
      · exact h.abroad rep i ha
    drop := fun h' heq => by cases hrun.symm.trans heq
    dtor := fun rep heq => by cases hrun.symm.trans heq
    borrow := by
      intro b x hx
      have ha := h.borrow b x hx
      refine (put_ne fun heq => ?_).trans ha
      rw [heq, home] at ha
      cases ha
    ref_thing := by
      intro r y w hy hs
      obtain ⟨x, e', hx, hne, he', hrest⟩ := h.ref_thing r y w hy hs
      exact ⟨x, e', hx, hne, (put_ne (owned hx hne)).trans he', hrest⟩
    homed := by
      intro rep c hc
      by_cases hrep : rep = e.rep
      · subst hrep
        exact Or.inl fun hnone => Option.some_ne_none _ ((put_self ..).symm.trans hnone)
      rcases h.homed rep c hc with ha | hd | ⟨h', e', he', hr⟩
      · exact Or.inl fun hnone => ha ((put_ne hrep).symm.trans hnone)
      · exact Or.inr (Or.inl hd)
      · refine Or.inr (Or.inr ⟨h', e', (put_ne ?_).trans he', hr⟩)
        rintro rfl
        cases he.symm.trans he'
        exact hrep hr.symm
    waiting := fun v hv => absurd hv (h.frames hrun v) }

/-- A `Thing` gets a handle of the table that nothing owns. -/
theorem Wired.takeBack {handle w : Nat} {e : Entry} (hlow : s.lowered handle = true)
    (he : s.table handle = some e) (hfull : s.Full e.rep e.inst) (hw : s.things w = none) :
    Wired { s with
      lowered := put s.lowered handle false
      things := put s.things w (some ⟨handle, e.inst⟩) } := by
  have hne := h.ne_taken he
  have owned : ∀ {w x}, s.things w = some x → x.handle ≠ taken → x.handle ≠ handle :=
    h.lowered_ne hlow
  exact { h with
    thing := by
      intro w' x hx hne'
      rcases put_cases hx with ⟨-, heq⟩ | ⟨-, hx⟩
      · cases heq
        exact ⟨put_self .., (h.lowered handle hlow).1, e, he, hfull⟩
      · obtain ⟨hl, hrest⟩ := h.thing w' x hx hne'
        exact ⟨(put_ne (owned hx hne')).trans hl, hrest⟩
    thing_inj := h.putThing_inj fun _ _ => owned
    lowered := by
      intro h' hl
      rcases put_cases hl with ⟨-, heq⟩ | ⟨-, hl⟩
      · cases heq
      · exact h.lowered h' hl
    held := by
      intro h' e' he'
      by_cases hh : h' = handle
      · exact Or.inr (Or.inr ⟨w, _, put_self .., hh.symm⟩)
      rcases h.held h' e' he' with hd | hl | ⟨w', x', hx', hh'⟩
      · exact Or.inl hd
      · exact Or.inr (Or.inl ((put_ne hh).trans hl))
      · refine Or.inr (Or.inr ⟨w', x', (put_ne ?_).trans hx', hh'⟩)
        rintro rfl
        cases hw.symm.trans hx'
    ref_thing := by
      intro r y w' hy hs
      obtain ⟨x, e', hx, hrest⟩ := h.ref_thing r y w' hy hs
      refine ⟨x, e', (put_ne ?_).trans hx, hrest⟩
      rintro rfl
      cases hw.symm.trans hx }

include hrun in
theorem Wired.liftOwn {rep handle w : Nat} {e : Entry} {n : Nat} (hrep : e.rep = rep)
    (ha : s.abroad rep = some e.inst) (hlent : s.Unlent rep)
    (hh : s.FreeHandle handle) (hw : s.things w = none) :
    Wired { s with
      abroad := put s.abroad rep none
      table := put s.table handle (some e)
      things := put s.things w (some ⟨handle, e.inst⟩)
      entries := n } := by
  subst hrep
  have hfull := h.abroad e.rep e.inst ha
  have hne := FreeHandle.ne_taken hh
  obtain ⟨hfree, -, hlt⟩ := hh
  have apart : ∀ {h' e'}, s.table h' = some e' → e'.rep ≠ e.rep := h.abroad_ne ha
  have known : ∀ {h' e'}, s.table h' = some e' → h' ≠ handle := by
    rintro h' e' he' rfl
    cases hfree.symm.trans he'
  exact { h with
    entry := by
      intro h' e' he'
      rcases put_cases he' with ⟨rfl, heq⟩ | ⟨-, he'⟩
      · cases heq
        exact ⟨hlt, put_self .., _, hfull⟩
      · obtain ⟨hlt', ha', hcell⟩ := h.entry h' e' he'
        exact ⟨hlt', (put_ne (apart he')).trans ha', hcell⟩
    entry_inj := h.entry_inj.put_some fun h' e' he' => apart he'
    thing := by
      intro w' x hx hne'
      rcases put_cases hx with ⟨-, heq⟩ | ⟨-, hx⟩
      · cases heq
        refine ⟨h.free_lowered hfree, fun heq => ?_, e, put_self .., hfull⟩
        cases hrun.symm.trans heq
      · obtain ⟨hl, hr, e', he', hfull'⟩ := h.thing w' x hx hne'
        exact ⟨hl, hr, e', (put_ne (known he')).trans he', hfull'⟩
    thing_inj := h.putThing_inj fun _ _ => h.free_ne hfree
    lowered := by
      intro h' hl
      obtain ⟨hr, e', he', hfull'⟩ := h.lowered h' hl
      exact ⟨hr, e', (put_ne (known he')).trans he', hfull'⟩
    held := by
      intro h' e' he'
      rcases put_cases he' with ⟨hh, -⟩ | ⟨-, he'⟩
      · exact Or.inr (Or.inr ⟨w, _, put_self .., hh.symm⟩)
      rcases h.held h' e' he' with hd | hl | ⟨w', x', hx', hh'⟩
      · exact Or.inl hd
      · exact Or.inr (Or.inl hl)
      · refine Or.inr (Or.inr ⟨w', x', (put_ne ?_).trans hx', hh'⟩)
        rintro rfl
        cases hw.symm.trans hx'
    abroad := by
      intro rep' i ha'
      rcases put_cases ha' with ⟨-, heq⟩ | ⟨-, ha'⟩
      · cases heq
      · exact h.abroad rep' i ha'
    drop := fun h' heq => by cases hrun.symm.trans heq
    dtor := fun rep heq => by cases hrun.symm.trans heq
    borrow := by
      intro b x hx
      exact (put_ne (hlent b x hx)).trans (h.borrow b x hx)
    ref_thing := by
      intro r y w' hy hs
      obtain ⟨x, e', hx, hne', he', hrest⟩ := h.ref_thing r y w' hy hs
      refine ⟨x, e', (put_ne ?_).trans hx, hne', (put_ne (known he')).trans he', hrest⟩
      rintro rfl
      cases hw.symm.trans hx
    homed := by
      intro rep' c hc
      by_cases hrep : rep' = e.rep
      · exact Or.inr (Or.inr ⟨handle, e, put_self .., hrep.symm⟩)
      rcases h.homed rep' c hc with ha' | hd | ⟨h', e', he', hr⟩
      · exact Or.inl fun hnone => ha' ((put_ne hrep).symm.trans hnone)
      · exact Or.inr (Or.inl hd)
      · exact Or.inr (Or.inr ⟨h', e', (put_ne (known he')).trans he', hr⟩)
    waiting := fun v hv => absurd hv (h.frames hrun v) }

include hrun in
theorem Wired.hostDrop {rep i : Nat} (ha : s.abroad rep = some i) (hlent : s.Unlent rep) :
    Wired { s with abroad := put s.abroad rep none, running := .dtor rep } := by
  have apart : ∀ {h' e'}, s.table h' = some e' → e'.rep ≠ rep := h.abroad_ne ha
  exact { h with
    entry := by
      intro h' e' he'
      obtain ⟨hlt, ha', hcell⟩ := h.entry h' e' he'
      exact ⟨hlt, (put_ne (apart he')).trans ha', hcell⟩
    thing := fun w x hx hne => by
      obtain ⟨hl, -, hrest⟩ := h.thing w x hx hne
      exact ⟨hl, nofun, hrest⟩
    lowered := fun h' hl => ⟨nofun, (h.lowered h' hl).2⟩
    held := by
      intro h' e' he'
      rcases h.held h' e' he' with hd | hrest
      · cases hrun.symm.trans hd
      · exact Or.inr hrest
    abroad := by
      intro rep' i ha'
      rcases put_cases ha' with ⟨-, heq⟩ | ⟨-, ha'⟩
      · cases heq
      · exact h.abroad rep' i ha'
    drop := nofun
    dtor := by
      intro rep' heq
      cases heq
      refine ⟨put_self .., fun h' e' he' => apart he', ?_⟩
      rw [show s.cells rep = _ from h.abroad rep i ha]
      nofun
    borrow := by
      intro b x hx
      exact (put_ne (hlent b x hx)).trans (h.borrow b x hx)
    homed := by
      intro rep' c hc
      by_cases hrep : rep' = rep
      · exact Or.inr (Or.inl (by rw [hrep]))
      rcases h.homed rep' c hc with ha' | hd | hh
      · exact Or.inl fun hnone => ha' ((put_ne hrep).symm.trans hnone)
      · cases hrun.symm.trans hd
      · exact Or.inr (Or.inr hh)
    waiting := fun v hv => absurd hv (h.frames hrun v) }

end Turn

/-- `into_inner` takes the value out of the box whose handle is dropped next. -/
theorem Wired.takeValue (h : Wired s) {handle v : Nat} {e : Entry} {c : Cell}
    (hrun : s.running = .drop handle) (he : s.table handle = some e)
    (hc : s.cells e.rep = some c) (hframes : ∀ v, .intoInner v ∉ s.stack) :
    Wired { s with
      cells := put s.cells e.rep (some { c with value := none })
      stack := .intoInner v :: s.stack } := by
  have full : ∀ {rep i}, rep ≠ e.rep → s.Full rep i →
      put s.cells e.rep (some { c with value := none }) rep = some ⟨i, some i⟩ :=
    fun hrep hfull => (put_ne hrep).trans hfull
  have apart : ∀ {h' e'}, s.table h' = some e' → h' ≠ handle → e'.rep ≠ e.rep :=
    fun he' hne heq => hne (h.entry_inj _ _ _ _ he' he heq)
  have home := (h.entry handle e he).2.1
  exact { h with
    entry := fun h' e' he' => by
      obtain ⟨hlt, ha, v, hcell⟩ := h.entry h' e' he'
      by_cases hrep : e'.rep = e.rep
      · rw [hrep, hc] at hcell
        cases hcell
        exact ⟨hlt, ha, none, (congrArg _ hrep).trans (put_self ..)⟩
      · exact ⟨hlt, ha, v, (put_ne hrep).trans hcell⟩
    thing := fun w x hx hne => by
      obtain ⟨hl, hr, e', he', hfull⟩ := h.thing w x hx hne
      refine ⟨hl, hr, e', he', full (apart he' fun heq => hr ?_) hfull⟩
      rw [hrun, heq]
    lowered := fun h' hl => by
      obtain ⟨hr, e', he', hfull⟩ := h.lowered h' hl
      refine ⟨hr, e', he', full (apart he' fun heq => hr ?_) hfull⟩
      rw [hrun, heq]
    abroad := fun rep i ha => by
      refine full ?_ (h.abroad rep i ha)
      rintro rfl
      cases home.symm.trans ha
    dtor := fun rep hd => by cases hrun.symm.trans hd
    homed := fun rep c' hc' => by
      rcases put_cases hc' with ⟨hrep, -⟩ | ⟨-, hc'⟩
      · exact Or.inr (Or.inr ⟨handle, e, he, hrep.symm⟩)
      · exact h.homed rep c' hc'
    waiting := fun u hu => by
      show State.Emptied _
      simp only [State.Emptied, hrun]
      intro e' c' he' hc'
      cases he.symm.trans he'
      rw [put_self] at hc'
      cases hc'
      rfl
    below := hframes }

/-! ## What runs -/

section Running

variable (h : Wired s)
include h

/-- `[resource-drop]`: the handle is gone, and the destructor is called. -/
theorem Wired.resourceDrop {handle : Nat} {e : Entry} (hrun : s.running = .drop handle)
    (he : s.table handle = some e) (ids : List Nat) :
    Wired { s with
      table := put s.table handle none
      resourceDrops := ids
      running := .dtor e.rep } := by
  have others : ∀ {h' e'}, h' ≠ handle → s.table h' = some e' → e'.rep ≠ e.rep :=
    fun hne he' heq => hne (h.entry_inj _ _ _ _ he' he heq)
  have dropped : ∀ {h'}, s.running ≠ .drop h' → h' ≠ handle := by
    rintro h' hr rfl
    exact hr hrun
  obtain ⟨-, ha, v, hcell⟩ := h.entry handle e he
  exact { h with
    entry := by
      intro h' e' he'
      rcases put_cases he' with ⟨-, heq⟩ | ⟨-, he'⟩
      · cases heq
      · exact h.entry h' e' he'
    entry_inj := h.entry_inj.put_none
    thing := fun w x hx hne => by
      obtain ⟨hl, hr, e', he', hfull⟩ := h.thing w x hx hne
      exact ⟨hl, nofun, e', (put_ne (dropped hr)).trans he', hfull⟩
    lowered := fun h' hl => by
      obtain ⟨hr, e', he', hfull⟩ := h.lowered h' hl
      exact ⟨nofun, e', (put_ne (dropped hr)).trans he', hfull⟩
    held := by
      intro h' e' he'
      rcases put_cases he' with ⟨-, heq⟩ | ⟨hne, he'⟩
      · cases heq
      rcases h.held h' e' he' with hd | hrest
      · exact absurd (Running.drop.inj (hrun.symm.trans hd)).symm hne
      · exact Or.inr hrest
    drop := nofun
    dtor := by
      intro rep heq
      cases heq
      refine ⟨ha, fun h' e' he' => ?_, fun hnone => Option.some_ne_none _ (hcell.symm.trans hnone)⟩
      rcases put_cases he' with ⟨-, heq⟩ | ⟨hne, he'⟩
      · cases heq
      · exact others hne he'
    ref_thing := by
      intro r y w hy hs
      obtain ⟨x, e', hx, hne, he', hrest⟩ := h.ref_thing r y w hy hs
      exact ⟨x, e', hx, hne, (put_ne (dropped (h.thing w x hx hne).2.1)).trans he', hrest⟩
    homed := by
      intro rep c hc
      by_cases hrep : rep = e.rep
      · exact Or.inr (Or.inl (by rw [hrep]))
      rcases h.homed rep c hc with ha' | hd | ⟨h', e', he', hr⟩
      · exact Or.inl ha'
      · cases hrun.symm.trans hd
      · refine Or.inr (Or.inr ⟨h', e', (put_ne ?_).trans he', hr⟩)
        rintro rfl
        cases he.symm.trans he'
        exact hrep hr.symm
    waiting := by
      intro v hv c hc
      have hempty := h.waiting v hv
      rw [State.Emptied, hrun] at hempty
      exact hempty e c he hc }

/-- The box is freed and its value, if there is one, comes out. -/
theorem Wired.freeBox {rep : Nat} {c : Cell} (hrun : s.running = .dtor rep)
    (hc : s.cells rep = some c) (ids : List Nat) :
    Wired { s with cells := put s.cells rep none, freed := ids, running := .scope c.value } := by
  obtain ⟨home, apart, -⟩ := h.dtor rep hrun
  have full : ∀ {rep' i}, rep' ≠ rep → s.Full rep' i → put s.cells rep none rep' = some ⟨i, some i⟩ :=
    fun hne hfull => (put_ne hne).trans hfull
  exact { h with
    entry := fun h' e' he' => by
      obtain ⟨hlt, ha, v, hcell⟩ := h.entry h' e' he'
      exact ⟨hlt, ha, v, (put_ne (apart h' e' he')).trans hcell⟩
    thing := fun w x hx hne => by
      obtain ⟨hl, -, e', he', hfull⟩ := h.thing w x hx hne
      exact ⟨hl, nofun, e', he', full (apart _ e' he') hfull⟩
    lowered := fun h' hl => by
      obtain ⟨-, e', he', hfull⟩ := h.lowered h' hl
      exact ⟨nofun, e', he', full (apart _ e' he') hfull⟩
    held := by
      intro h' e' he'
      rcases h.held h' e' he' with hd | hrest
      · cases hrun.symm.trans hd
      · exact Or.inr hrest
    abroad := fun rep' i ha => by
      refine full ?_ (h.abroad rep' i ha)
      rintro rfl
      cases home.symm.trans ha
    drop := nofun
    dtor := nofun
    homed := by
      intro rep' c' hc'
      rcases put_cases hc' with ⟨-, heq⟩ | ⟨hne, hc'⟩
      · cases heq
      rcases h.homed rep' c' hc' with ha | hd | hh
      · exact Or.inl ha
      · exact absurd (Running.dtor.inj (hrun.symm.trans hd)).symm hne
      · exact Or.inr (Or.inr hh)
    waiting := by
      intro v hv
      have hempty := h.waiting v hv
      rw [State.Emptied, hrun] at hempty
      exact hempty c hc }

/-- Control comes back to the user's code, with `stack` for the frames left. -/
theorem Wired.toUser {v : Option Nat} {stack : List Frame} {values : List Nat}
    (hrun : s.running = .scope v) (hframes : ∀ v, .intoInner v ∉ stack) :
    Wired { s with running := .user, stack := stack, returned := values } :=
  { h with
    thing := fun w x hx hne => by
      obtain ⟨hl, -, hrest⟩ := h.thing w x hx hne
      exact ⟨hl, nofun, hrest⟩
    lowered := fun h' hl => ⟨nofun, (h.lowered h' hl).2⟩
    held := by
      intro h' e' he'
      rcases h.held h' e' he' with hd | hrest
      · cases hrun.symm.trans hd
      · exact Or.inr hrest
    drop := nofun
    dtor := nofun
    homed := by
      intro rep c hc
      rcases h.homed rep c hc with ha | hd | hh
      · exact Or.inl ha
      · cases hrun.symm.trans hd
      · exact Or.inr (Or.inr hh)
    waiting := fun u hu => absurd hu (hframes u)
    below := fun u hu => hframes u (List.mem_of_mem_tail hu) }

/-- The user's `Drop` returns to the user's code that it interrupted. -/
theorem Wired.popValue {v : Nat} {stack : List Frame} {values : List Nat}
    (hrun : s.running = .user) (hstack : s.stack = .value v :: stack) :
    Wired { s with stack := stack, dropped := values } := by
  have hframes : ∀ u, .intoInner u ∉ stack := fun u hu =>
    h.frames hrun u (hstack ▸ List.mem_cons_of_mem _ hu)
  exact { h with
    waiting := fun u hu => absurd hu (hframes u)
    below := fun u hu => hframes u (List.mem_of_mem_tail hu) }

end Running

end WitBindgen.Rust
