import WitBindgen.Library.Ledger
import WitBindgen.Rust.Instances

/-!
# Values, boxes and handles accounted for

Each value is in its box, or has come out of it once; each box is allocated or
was freed once; each handle is in the table, or was dropped or handed over once.
With what points where this makes the code safe: nothing it is allowed to do
fails.
-/

namespace WitBindgen.Rust

/-! ## Accounts -/

/-- A value at the end of the scope of `_rep`. -/
def Running.values : Running → List Nat
  | .scope v => v.toList
  | _ => []

namespace State

variable (s : State)

/-- The value of instance `i` is in its box. -/
def Boxed (i : Nat) : Prop := ∃ rep c, s.cells rep = some c ∧ c.value = some i

/-- The box of instance `i` is allocated. -/
def Allocated (i : Nat) : Prop := ∃ rep c, s.cells rep = some c ∧ c.inst = i

/-- The handle numbered `i` is in the table. -/
def Held (i : Nat) : Prop := ∃ h e, s.table h = some e ∧ e.id = i

/-- The values on their way out, whose `Drop` runs or which `into_inner` is about
to return. -/
def leaving : List Nat := s.stack.map Frame.inst ++ s.running.values

/-- How often the value of `i` came out of its box. -/
def out (i : Nat) : Nat := s.dropped.count i + s.returned.count i + s.leaving.count i

/-- How often the handle `i` was dropped or handed over. -/
def released (i : Nat) : Nat := s.resourceDrops.count i + s.givenAway.count i

end State

structure Counted (s : State) : Prop where
  value : ∀ rep c, s.cells rep = some c → c.value = none ∨ c.value = some c.inst
  box_inj : Apart s.cells Cell.inst
  id_inj : Apart s.table Entry.id
  values : Ledger s.Boxed s.out s.instances
  boxes : Ledger s.Allocated (s.freed.count ·) s.instances
  handles : Ledger s.Held s.released s.entries

theorem counted_initial : Counted State.initial where
  value := nofun
  box_inj := nofun
  id_inj := nofun
  values := Ledger.empty.congr (by simp [State.Boxed, State.initial])
    (by simp [State.out, State.leaving, State.initial, Running.values])
  boxes := Ledger.empty.congr (by simp [State.Allocated, State.initial]) (by simp [State.initial])
  handles := Ledger.empty.congr (by simp [State.Held, State.initial])
    (by simp [State.released, State.initial])

theorem ok_bind {α β : Type} {a : α} {f : α → Except Fault β} : (Except.ok a >>= f) = f a := rfl

theorem count_cons_add (a i : Nat) (xs : List Nat) :
    (a :: xs).count i = xs.count i + if i = a then 1 else 0 := by
  by_cases heq : i = a
  · rw [if_pos heq, heq, List.count_cons_self]
  · rw [if_neg heq, List.count_cons_of_ne (Ne.symm heq), Nat.add_zero]

section

variable {s : State} (h : Counted s)
include h

theorem Counted.new {w rep handle : Nat} (hrep : s.cells rep = none)
    (hh : s.table handle = none) : Counted (s.new w rep handle) where
  value rep' c hc := by
    rcases put_cases hc with ⟨-, heq⟩ | ⟨-, hc⟩
    · cases heq
      exact Or.inr rfl
    · exact h.value rep' c hc
  box_inj := h.box_inj.put_some fun rep' c hc heq =>
    absurd (h.boxes.kept c.inst ⟨rep', c, hc, rfl⟩).1 (by rw [heq]; exact Nat.lt_irrefl _)
  id_inj := h.id_inj.put_some fun h' e he heq =>
    absurd (h.handles.kept e.id ⟨h', e, he, rfl⟩).1 (by rw [heq]; exact Nat.lt_irrefl _)
  values := h.values.create fun i => by
    refine (exists_put_some hrep).trans (or_congr Iff.rfl ?_)
    exact Option.some_inj.trans eq_comm
  boxes := h.boxes.create fun i => (exists_put_some hrep).trans (or_congr Iff.rfl eq_comm)
  handles := h.handles.create fun i => (exists_put_some hh).trans (or_congr Iff.rfl eq_comm)

theorem Counted.liftOwn {rep handle w i : Nat} (hh : s.table handle = none) :
    Counted { s with
      abroad := put s.abroad rep none
      table := put s.table handle (some ⟨rep, i, s.entries⟩)
      things := put s.things w (some ⟨handle, i⟩)
      entries := s.entries + 1 } :=
  { h with
    id_inj := h.id_inj.put_some fun h' e he heq =>
      absurd (h.handles.kept e.id ⟨h', e, he, rfl⟩).1 (by rw [heq]; exact Nat.lt_irrefl _)
    handles := h.handles.create fun i => (exists_put_some hh).trans (or_congr Iff.rfl eq_comm) }

/-- A handle leaves the table, dropped or handed over. -/
theorem Counted.release {handle : Nat} {e : Entry} (he : s.table handle = some e) {s' : State}
    (hcells : s'.cells = s.cells) (htable : s'.table = put s.table handle none)
    (hout : s'.out = s.out) (hfreed : s'.freed = s.freed) (hinst : s'.instances = s.instances)
    (hentries : s'.entries = s.entries)
    (hreleased : ∀ i, s'.released i = s.released i + if i = e.id then 1 else 0) : Counted s' where
  value := hcells ▸ h.value
  box_inj := hcells ▸ h.box_inj
  id_inj := htable ▸ h.id_inj.put_none
  values := by
    rw [hout, hinst]
    exact h.values.congr (fun i => by simp only [State.Boxed, hcells]) fun i => rfl
  boxes := by
    rw [hfreed, hinst]
    exact h.boxes.congr (fun i => by simp only [State.Allocated, hcells]) fun i => rfl
  handles := by
    rw [hentries]
    refine h.handles.dispose (j := e.id) ⟨handle, e, he, rfl⟩ (fun i => ?_) hreleased
    simp only [State.Held, htable]
    exact exists_put_none h.id_inj he

/-- The value `v` comes out of the box at `rep`. -/
theorem Counted.boxed_iff {rep v : Nat} {c : Cell} (hc : s.cells rep = some c)
    (hv : c.value = some v) (x : Option Cell) (hx : ∀ c', x = some c' → c'.value = none) (i : Nat) :
    (∃ r c, put s.cells rep x r = some c ∧ c.value = some i) ↔ s.Boxed i ∧ i ≠ v := by
  constructor
  · rintro ⟨r, c', hc', hi⟩
    rcases put_cases hc' with ⟨-, heq⟩ | ⟨hr, hc'⟩
    · cases (hx c' heq).symm.trans hi
    · refine ⟨⟨r, c', hc', hi⟩, fun heq => hr (h.box_inj r rep c' c hc' hc ?_)⟩
      rcases h.value r c' hc' with hn | hs
      · cases hn.symm.trans hi
      · rcases h.value rep c hc with hn' | hs'
        · cases hn'.symm.trans hv
        · have h₁ := Option.some.inj (hs.symm.trans hi)
          have h₂ := Option.some.inj (hs'.symm.trans hv)
          rw [h₁, h₂, heq]
  · rintro ⟨⟨r, c', hc', hi⟩, hne⟩
    refine ⟨r, c', (put_ne ?_).trans hc', hi⟩
    rintro rfl
    cases hc.symm.trans hc'
    exact hne (Option.some.inj (hi.symm.trans hv))

/-- `rep_take`: the box stays, without its value. -/
theorem Counted.takeValue {rep v : Nat} {c : Cell} (hc : s.cells rep = some c)
    (hv : c.value = some v) :
    Counted { s with
      cells := put s.cells rep (some { c with value := none })
      stack := .intoInner v :: s.stack } :=
  { h with
    value := by
      intro rep' c' hc'
      rcases put_cases hc' with ⟨-, heq⟩ | ⟨-, hc'⟩
      · cases heq
        exact Or.inl rfl
      · exact h.value rep' c' hc'
    box_inj := by
      intro r₁ r₂ c₁ c₂ h₁ h₂ heq
      have same : ∀ {r c'}, put s.cells rep (some { c with value := none }) r = some c' →
          ∃ c₀, s.cells r = some c₀ ∧ c₀.inst = c'.inst := by
        intro r c' hc'
        rcases put_cases hc' with ⟨rfl, heq⟩ | ⟨-, hc'⟩
        · cases heq
          exact ⟨c, hc, rfl⟩
        · exact ⟨c', hc', rfl⟩
      obtain ⟨d₁, hd₁, hi₁⟩ := same h₁
      obtain ⟨d₂, hd₂, hi₂⟩ := same h₂
      exact h.box_inj r₁ r₂ d₁ d₂ hd₁ hd₂ (by rw [hi₁, hi₂, heq])
    values := by
      refine h.values.dispose (j := v) ⟨rep, c, hc, hv⟩
        (h.boxed_iff hc hv _ (by rintro c' ⟨⟩; rfl)) fun i => ?_
      simp only [State.out, State.leaving, List.map_cons, List.cons_append, count_cons_add,
        Frame.inst]
      omega
    boxes := by
      refine h.boxes.congr (fun i => ?_) fun i => rfl
      constructor
      · rintro ⟨r, c', hc', hi⟩
        rcases put_cases hc' with ⟨-, heq⟩ | ⟨-, hc'⟩
        · cases heq
          exact ⟨rep, c, hc, hi⟩
        · exact ⟨r, c', hc', hi⟩
      · rintro ⟨r, c', hc', hi⟩
        by_cases hr : r = rep
        · subst hr
          cases hc.symm.trans hc'
          exact ⟨r, _, put_self .., hi⟩
        · exact ⟨r, c', (put_ne hr).trans hc', hi⟩ }

/-- `Box::from_raw` and the end of the box. -/
theorem Counted.freeBox {rep : Nat} {c : Cell} (hrun : s.running = .dtor rep)
    (hc : s.cells rep = some c) :
    Counted { s with
      cells := put s.cells rep none
      freed := c.inst :: s.freed
      running := .scope c.value } :=
  { h with
    value := by
      intro rep' c' hc'
      rcases put_cases hc' with ⟨-, heq⟩ | ⟨-, hc'⟩
      · cases heq
      · exact h.value rep' c' hc'
    box_inj := h.box_inj.put_none
    values := by
      have hout : ∀ i, s.out i = s.dropped.count i + s.returned.count i +
          (s.stack.map Frame.inst).count i := by
        intro i
        rw [State.out, State.leaving, hrun]
        simp [Running.values]
      cases hv : c.value with
      | none =>
        refine h.values.congr (fun i => ?_) fun i => ?_
        · constructor
          · rintro ⟨r, c', hc', hi⟩
            rcases put_cases hc' with ⟨-, heq⟩ | ⟨-, hc'⟩
            · cases heq
            · exact ⟨r, c', hc', hi⟩
          · rintro ⟨r, c', hc', hi⟩
            refine ⟨r, c', (put_ne ?_).trans hc', hi⟩
            rintro rfl
            cases hc.symm.trans hc'
            cases hv.symm.trans hi
        · rw [hout, State.out, State.leaving]
          simp [Running.values]
      | some v =>
        refine h.values.dispose (j := v) ⟨rep, c, hc, hv⟩ (h.boxed_iff hc hv none nofun)
          fun i => ?_
        rw [hout, State.out, State.leaving]
        simp only [Running.values, List.count_append, Option.toList, count_cons_add,
          List.count_nil]
        omega
    boxes := by
      refine h.boxes.dispose (j := c.inst) ⟨rep, c, hc, rfl⟩
        (fun i => exists_put_none h.box_inj hc) fun i => ?_
      exact count_cons_add c.inst i s.freed }

/-- Values that are on their way out get further. -/
theorem Counted.move {s' : State} (hcells : s'.cells = s.cells) (htable : s'.table = s.table)
    (hfreed : s'.freed = s.freed) (hinst : s'.instances = s.instances)
    (hentries : s'.entries = s.entries) (hreleased : s'.released = s.released)
    (hout : ∀ i, s'.out i = s.out i) : Counted s' where
  value := hcells ▸ h.value
  box_inj := hcells ▸ h.box_inj
  id_inj := htable ▸ h.id_inj
  values := by
    rw [hinst]
    exact h.values.congr (fun i => by simp only [State.Boxed, hcells]) hout
  boxes := by
    rw [hfreed, hinst]
    exact h.boxes.congr (fun i => by simp only [State.Allocated, hcells]) fun i => rfl
  handles := by
    rw [hentries, hreleased]
    exact h.handles.congr (fun i => by simp only [State.Held, htable]) fun i => rfl

end

/-! ## Steps -/

structure Inv (s : State) : Prop where
  wired : Wired s
  counted : Counted s

section

variable {s : State}

/-- What a reference refers to. -/
theorem Wired.ref_full (h : Wired s) {r : Nat} {y : Ref} (hy : s.refs r = some y) :
    s.Full y.rep y.inst := by
  cases hs : y.source with
  | thing w =>
    obtain ⟨x, e, hx, hne, he, hr, hi⟩ := h.ref_thing r y w hy hs
    obtain ⟨-, -, e', he', hfull⟩ := h.thing w x hx hne
    cases he.symm.trans he'
    rw [← hr, ← hi]
    exact hfull
  | borrow b =>
    obtain ⟨x, hx, hr, hi⟩ := h.ref_borrow r y b hy hs
    rw [← hr, ← hi]
    exact h.abroad x.rep x.inst (h.borrow b x hx)

theorem repAsRef_full {rep i : Nat} (hfull : s.Full rep i) : s.repAsRef rep = .ok i := by
  rw [State.repAsRef, State.cell, show s.cells rep = _ from hfull]
  rfl

theorem thing_eq {w : Nat} {x : Thing} (hx : s.things w = some x) : s.thing w = .ok x := by
  rw [State.thing, hx]
  rfl

theorem resourceRep_eq {handle : Nat} {e : Entry} (he : s.table handle = some e) :
    s.resourceRep handle = .ok e.rep := by
  rw [State.resourceRep, he]
  rfl

theorem cell_eq {rep : Nat} {c : Cell} (hc : s.cells rep = some c) : s.cell rep = .ok c := by
  rw [State.cell, hc]
  rfl

variable (h : Inv s)
include h

theorem Inv.get {w r : Nat} (hw : s.Owns w) : ∃ s', s.get w r = .ok s' ∧ Inv s' := by
  obtain ⟨x, e, hx, hne, he, hfull⟩ := h.wired.owns hw
  refine ⟨{ s with refs := put s.refs r (some ⟨.thing w, e.rep, x.inst⟩) }, ?_, ?_, ?_⟩
  · rw [State.get, thing_eq hx, ok_bind, resourceRep_eq he, ok_bind,
      repAsRef_full hfull]
    rfl
  · refine h.wired.putRef (fun w' hw' => ?_) nofun
    cases hw'
    exact ⟨x, e, hx, hne, he, rfl, rfl⟩
  · exact { h.counted with }

theorem Inv.borrowGet {b r : Nat} {x : ThingBorrow} (hx : s.borrows b = some x) :
    ∃ s', s.borrowGet b r = .ok s' ∧ Inv s' := by
  have hfull := h.wired.abroad x.rep x.inst (h.wired.borrow b x hx)
  refine ⟨{ s with refs := put s.refs r (some ⟨.borrow b, x.rep, x.inst⟩) }, ?_, ?_, ?_⟩
  · rw [State.borrowGet, hx, Option.elim_some, ok_bind, repAsRef_full hfull]
    rfl
  · refine h.wired.putRef nofun fun b' hb' => ?_
    cases hb'
    exact ⟨x, hx, rfl, rfl⟩
  · exact { h.counted with }

/-- A reference refers to the value of its instance. -/
theorem Inv.deref {r : Nat} {y : Ref} (hy : s.refs r = some y) : s.deref r = .ok y.inst := by
  rw [State.deref, hy, Option.elim_some, ok_bind, cell_eq (h.wired.ref_full hy)]
  rfl

theorem Inv.dropResource {w : Nat} {x : Thing} (hrun : s.running = .user)
    (hx : s.things w = some x) (href : s.Unreferenced (.thing w)) :
    Inv ({ s with things := put s.things w none }.dropResource x) := by
  rw [State.dropResource]
  split
  · next ht => exact ⟨h.wired.forget hx ht href, { h.counted with }⟩
  · next hne =>
      refine ⟨h.wired.dropHandle hrun hx hne href, h.counted.move rfl rfl rfl rfl rfl rfl fun i => ?_⟩
      simp only [State.out, State.leaving, hrun, Running.values]

theorem Inv.intoInner {w : Nat} (hrun : s.running = .user) (hw : s.Owns w)
    (href : s.Unreferenced (.thing w)) : ∃ s', s.intoInner w = .ok s' ∧ Inv s' := by
  obtain ⟨x, e, hx, hne, he, hfull⟩ := h.wired.owns hw
  have hexec : s.intoInner w = .ok ({ s with
      cells := put s.cells e.rep (some ⟨x.inst, none⟩)
      things := put s.things w none
      stack := .intoInner x.inst :: s.stack }.dropResource x) := by
    rw [State.intoInner, thing_eq hx, ok_bind, resourceRep_eq he, ok_bind,
      repAsRef_full hfull, ok_bind, cell_eq hfull]
    rfl
  refine ⟨_, hexec, ?_⟩
  · have hdrop := h.dropResource hrun hx href
    rw [State.dropResource, if_neg hne] at hdrop ⊢
    exact ⟨hdrop.wired.takeValue (v := x.inst) rfl he hfull
      (h.wired.frames hrun), hdrop.counted.takeValue hfull rfl⟩

theorem Inv.handOver {handle : Nat} (hrun : s.running = .user) (hlow : s.lowered handle = true) :
    ∃ s', s.handOver handle = .ok s' ∧ Inv s' := by
  obtain ⟨-, e, he, hfull⟩ := h.wired.lowered handle hlow
  refine ⟨_, ?_, h.wired.handOver hrun hlow he hfull (e.id :: s.givenAway),
    h.counted.release he rfl rfl rfl rfl rfl rfl fun j => ?_⟩
  · rw [State.handOver, he]
    rfl
  · simp only [State.released, count_cons_add]
    omega

theorem Inv.takeBack {handle w : Nat} (hlow : s.lowered handle = true) (hw : s.things w = none) :
    ∃ s', s.takeBack handle w = .ok s' ∧ Inv s' := by
  obtain ⟨-, e, he, hfull⟩ := h.wired.lowered handle hlow
  refine ⟨_, ?_, h.wired.takeBack hlow he hfull hw, { h.counted with }⟩
  rw [State.takeBack, he]
  rfl

theorem Inv.liftOwn {rep handle w i : Nat} (hrun : s.running = .user) (ha : s.abroad rep = some i)
    (hlent : s.Unlent rep) (hh : s.FreeHandle handle) (hw : s.things w = none) :
    ∃ s', s.liftOwn rep handle w = .ok s' ∧ Inv s' := by
  refine ⟨{ s with
    abroad := put s.abroad rep none
    table := put s.table handle (some ⟨rep, i, s.entries⟩)
    things := put s.things w (some ⟨handle, i⟩)
    entries := s.entries + 1 }, ?_, h.wired.liftOwn hrun rfl ha hlent hh hw,
    h.counted.liftOwn hh.1⟩
  rw [State.liftOwn, ha]
  rfl

theorem Inv.return_ {v : Option Nat} (hrun : s.running = .scope v) (hv : v = none) :
    Inv s.return_ := by
  subst hv
  rw [State.return_]
  split
  · next u stack hstack =>
      have hbelow : ∀ u, .intoInner u ∉ stack := by
        intro u hu
        have hnot := h.wired.below u
        rw [hstack] at hnot
        exact hnot hu
      refine ⟨h.wired.toUser hrun hbelow, h.counted.move rfl rfl rfl rfl rfl rfl fun i => ?_⟩
      simp only [State.out, State.leaving, hrun, hstack, Running.values, List.map_cons, List.cons_append, count_cons_add, Frame.inst, Option.toList]
      omega
  · next hstack =>
      have hframes : ∀ u, .intoInner u ∉ s.stack := by
        intro u hu
        cases hs : s.stack with
        | nil => rw [hs] at hu; cases hu
        | cons f stack =>
          rw [hs] at hu
          rcases List.mem_cons.mp hu with rfl | hu
          · exact hstack u stack hs
          · have hnot := h.wired.below u
            rw [hs] at hnot
            exact hnot hu
      refine ⟨h.wired.toUser hrun hframes, h.counted.move rfl rfl rfl rfl rfl rfl fun i => ?_⟩
      simp only [State.out, State.leaving, hrun, Running.values, Option.toList_none]

/-- The next step of what runs, or the return of the user's `Drop`. -/
theorem Inv.resume (hstack : s.running = .user → s.stack ≠ []) :
    ∃ s', s.resume = .ok s' ∧ Inv s' := by
  cases hrun : s.running with
  | user =>
    cases hs : s.stack with
    | nil => exact absurd hs (hstack hrun)
    | cons f stack =>
      have hframes := h.wired.frames hrun
      cases f with
      | intoInner v => exact absurd (hs ▸ List.mem_cons_self ..) (hframes v)
      | value v =>
        -- nothing below waits for an `into_inner`, so `return_` changes nothing
        have hreturn : State.return_ { s with stack := stack, dropped := v :: s.dropped } =
            { s with stack := stack, dropped := v :: s.dropped } := by
          rw [State.return_]
          split
          · next u stack' heq =>
              have hmem : Frame.intoInner u ∈ s.stack := by
                rw [hs, show stack = _ from heq]
                simp
              exact absurd hmem (hframes u)
          · rw [← hrun]
        refine ⟨{ s with stack := stack, dropped := v :: s.dropped }, ?_,
          h.wired.popValue hrun hs, h.counted.move rfl rfl rfl rfl rfl rfl fun i => ?_⟩
        · rw [← hreturn, State.resume]
          simp only [hrun, hs]
        · simp only [State.out, State.leaving, hrun, hs, Running.values, List.map_cons, List.cons_append, count_cons_add, Frame.inst]
          omega
  | drop handle =>
    obtain ⟨e, he⟩ := h.wired.drop handle hrun
    refine ⟨_, ?_, h.wired.resourceDrop hrun he (e.id :: s.resourceDrops),
      h.counted.release he rfl rfl ?_ rfl rfl rfl fun j => ?_⟩
    · rw [State.resume, hrun]
      simp only [he]
    · funext i
      simp only [State.out, State.leaving, hrun, Running.values]
    · simp only [State.released, count_cons_add]
      omega
  | dtor rep =>
    obtain ⟨-, -, hcell⟩ := h.wired.dtor rep hrun
    obtain ⟨c, hc⟩ := Option.ne_none_iff_exists'.mp hcell
    refine ⟨_, ?_, h.wired.freeBox hrun hc (c.inst :: s.freed), h.counted.freeBox hrun hc⟩
    rw [State.resume, hrun]
    simp only [hc]
  | scope v =>
    cases v with
    | none =>
      refine ⟨_, ?_, h.return_ hrun rfl⟩
      rw [State.resume, hrun]
    | some v =>
      have hframes : ∀ u, .intoInner u ∉ s.stack := by
        intro u hu
        have hempty := h.wired.waiting u hu
        rw [State.Emptied, hrun] at hempty
        cases hempty
      refine ⟨{ s with running := .user, stack := .value v :: s.stack }, ?_,
        h.wired.toUser hrun fun u hu => ?_, h.counted.move rfl rfl rfl rfl rfl rfl fun i => ?_⟩
      · rw [State.resume, hrun]
      · rcases List.mem_cons.mp hu with heq | hu
        · cases heq
        · exact hframes u hu
      · simp only [State.out, State.leaving, hrun, Running.values, List.map_cons, List.cons_append, count_cons_add, Frame.inst, List.count_append, Option.toList, List.count_nil]
        omega

/-- Nothing that is allowed fails. -/
theorem Inv.step {e : Event} (hallowed : resources.allowed s e) :
    ∃ s', resources.exec s e = .ok s' ∧ Inv s' := by
  cases hrun : s.running with
  | user =>
    simp only [resources, hrun] at hallowed
    cases e with
    | new w rep handle =>
      obtain ⟨hw, hrep, hh⟩ := hallowed
      exact ⟨_, rfl, h.wired.new hrun hw hrep hh, h.counted.new hrep hh.1⟩
    | get w r => exact h.get hallowed.1
    | getMut w r => exact h.get hallowed.1
    | deref r =>
      obtain ⟨y, hy⟩ := hallowed
      refine ⟨s, ?_, h⟩
      show s.deref r >>= _ = _
      rw [h.deref hy]
      rfl
    | endRef r => exact ⟨_, rfl, h.wired.endRef, { h.counted with }⟩
    | intoInner w => exact h.intoInner hrun hallowed.1 hallowed.2
    | dropThing w =>
      obtain ⟨⟨x, hx⟩, href⟩ := hallowed
      refine ⟨_, ?_, h.dropResource hrun hx href⟩
      show s.dropThing w = _
      rw [State.dropThing, thing_eq hx]
      rfl
    | takeHandle w =>
      obtain ⟨⟨x, hx, hne⟩, href⟩ := hallowed
      refine ⟨_, ?_, h.wired.takeHandle hrun hx hne href, { h.counted with }⟩
      show s.takeHandle w = _
      rw [State.takeHandle, thing_eq hx]
      rfl
    | handOver handle => exact h.handOver hrun hallowed
    | takeBack handle w => exact h.takeBack hallowed.1 hallowed.2
    | liftOwn rep handle w =>
      obtain ⟨⟨i, ha⟩, hlent, hh, hw⟩ := hallowed
      exact h.liftOwn hrun ha hlent hh hw
    | liftBorrow rep b =>
      obtain ⟨⟨i, ha⟩, hb⟩ := hallowed
      refine ⟨_, ?_, h.wired.liftBorrow ha hb, { h.counted with }⟩
      show s.liftBorrow rep b = _
      rw [State.liftBorrow, ha]
      rfl
    | borrowGet b r =>
      obtain ⟨⟨x, hx⟩, -⟩ := hallowed
      exact h.borrowGet hx
    | endBorrow b => exact ⟨_, rfl, h.wired.endBorrow hallowed.2, { h.counted with }⟩
    | hostDrop rep =>
      obtain ⟨⟨i, ha⟩, hlent⟩ := hallowed
      refine ⟨_, rfl, h.wired.hostDrop hrun ha hlent, h.counted.move rfl rfl rfl rfl rfl rfl fun i => ?_⟩
      simp only [State.out, State.leaving, hrun, Running.values]
    | resume => exact h.resume fun _ => hallowed
  | drop handle | dtor rep | scope v =>
    simp only [resources, hrun] at hallowed
    subst hallowed
    exact h.resume fun hu => by rw [hrun] at hu; cases hu

end

theorem Inv.of_reachable {s : State} (h : resources.Reachable s) : Inv s := by
  refine h.invariant (fun s hs => ?_) fun s e s' hinv hallowed hexec => ?_
  · cases hs
    exact ⟨wired_initial, counted_initial⟩
  · obtain ⟨s₁, hok, hinv'⟩ := hinv.step hallowed
    rw [hexec] at hok
    cases hok
    exact hinv'

end WitBindgen.Rust
