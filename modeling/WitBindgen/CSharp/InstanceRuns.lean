import WitBindgen.CSharp.Instances

/-!
# Runs over exported resources

Each piece of emitted code succeeds in a state that keeps the invariant, when the
instance it lowers is new or the component's, and keeps the invariant. Lowered
again while the host owns it, an instance gets a second slot.
-/

namespace WitBindgen.CSharp

/-- What an entry says about its handle, wherever that is. -/
def Entry.own (e : Entry) : Abroad := ⟨e.rep, e.inst⟩

namespace State

def own (s : State) : Place → Option Abroad
  | .table h => (s.table h).map Entry.own
  | .abroad x => s.abroad x

/-- What `Handle` is to be for a handle at a place. -/
def shown (s : State) : Place → Nat
  | .table h =>
    match s.table h with
    | some e => if e.lowered then 0 else h
    | none => 0
  | .abroad _ => 0

variable {s s' : State}

theorem own_table {h : Nat} {e : Entry} (he : s.table h = some e) :
    s.own (.table h) = some ⟨e.rep, e.inst⟩ := by
  rw [own, he]
  rfl

theorem shown_table {h : Nat} {e : Entry} (he : s.table h = some e) :
    s.shown (.table h) = if e.lowered then 0 else h := by
  rw [shown, he]

theorem table_of_own {h rep i : Nat} (ho : s.own (.table h) = some ⟨rep, i⟩) :
    ∃ e, s.table h = some e ∧ e.rep = rep ∧ e.inst = i := by
  cases he : s.table h with
  | none =>
    rw [own, he] at ho
    cases ho
  | some e =>
    rw [own_table he] at ho
    cases ho
    exact ⟨e, rfl, rfl, rfl⟩

theorem live_iff {rep i : Nat} : s.Live rep i ↔ ∃ p, s.own p = some ⟨rep, i⟩ := by
  constructor
  · rintro (⟨h, e, he, rfl, rfl⟩ | ⟨x, hx⟩)
    · exact ⟨.table h, own_table he⟩
    · exact ⟨.abroad x, hx⟩
  · rintro ⟨h | x, hp⟩
    · obtain ⟨e, he, hrep, hinst⟩ := table_of_own hp
      exact Or.inl ⟨h, e, he, hrep, hinst⟩
    · exact Or.inr ⟨x, hp⟩

/-- One index of the table changes. -/
theorem own_update_table {h : Nat} {x : Option Entry}
    (ht : s'.table = Function.update s.table h x) (ha : s'.abroad = s.abroad) :
    s'.own = Function.update s.own (.table h) (x.map Entry.own) := by
  funext p
  by_cases hp : p = .table h
  · rw [hp, Function.update_self, own, ht, Function.update_self]
  · rw [Function.update_of_ne hp]
    cases p with
    | table k =>
      have hk : k ≠ h := fun heq => hp (heq ▸ rfl)
      rw [own, own, ht, Function.update_of_ne hk]
    | abroad k => rw [own, own, ha]

theorem own_update_abroad {y : Nat} {x : Option Abroad} (ht : s'.table = s.table)
    (ha : s'.abroad = Function.update s.abroad y x) :
    s'.own = Function.update s.own (.abroad y) x := by
  funext p
  by_cases hp : p = .abroad y
  · rw [hp, Function.update_self, own, ha, Function.update_self]
  · rw [Function.update_of_ne hp]
    cases p with
    | table k => rw [own, own, ht]
    | abroad k =>
      have hk : k ≠ y := fun heq => hp (heq ▸ rfl)
      rw [own, own, ha, Function.update_of_ne hk]

/-- A handle goes from the table to elsewhere or back. -/
theorem own_update_both {h y : Nat} {e : Option Entry} {x : Option Abroad}
    (ht : s'.table = Function.update s.table h e) (ha : s'.abroad = Function.update s.abroad y x) :
    s'.own = Function.update (Function.update s.own (.table h) (e.map Entry.own)) (.abroad y) x := by
  have hmid : ({ s with table := Function.update s.table h e } : State).own =
      Function.update s.own (.table h) (e.map Entry.own) := own_update_table rfl rfl
  rw [← hmid]
  exact own_update_abroad ht ha

/-- The other indices show what they did. -/
theorem shown_congr {h : Nat} {x : Option Entry} (ht : s'.table = Function.update s.table h x)
    (p : Place) (hp : p ≠ .table h) : s'.shown p = s.shown p := by
  cases p with
  | table k =>
    have hk : k ≠ h := fun heq => hp (heq ▸ rfl)
    rw [shown, shown, ht, Function.update_of_ne hk]
  | abroad k => rfl

end State

/-! ## The invariant -/

theorem Matched.state {own : Place → Option Abroad} {slots : Nat → Option Nat}
    {handle : Nat → Nat} {s : State} (h : Matched own slots handle s.shown) (ho : s.own = own)
    (hs : s.repTable.lookup = slots) (hh : s.handle = handle) :
    Matched s.own s.repTable.lookup s.handle s.shown := by
  rw [ho, hs, hh]
  exact h

/-- Handles in the table have their own serial numbers, not those of dropped ones. -/
structure Serials (table : Nat → Option Entry) (entries : Nat) (dropped : List Nat) : Prop where
  index : ∀ h e, table h = some e → h ≠ 0
  entry : ∀ h e, table h = some e → e.serial < entries ∧ e.serial ∉ dropped
  apart : ∀ h h' e e', table h = some e → table h' = some e' → e.serial = e'.serial → h = h'
  past : ∀ d ∈ dropped, d < entries
  nodup : dropped.Nodup

/-- Registered instances have a slot, or were finalised once. -/
structure Finalised (slots : Nat → Option Nat) (registered finalised : List Nat) : Prop where
  known : ∀ rep i, slots rep = some i → i ∈ registered
  once : ∀ i ∈ registered, (∃ rep, slots rep = some i) ∧ finalised.count i = 0 ∨
    (∀ rep, slots rep ≠ some i) ∧ finalised.count i = 1
  strangers : ∀ i, i ∉ registered → finalised.count i = 0

structure Inv (s : State) : Prop where
  wf : s.repTable.WF
  matched : Matched s.own s.repTable.lookup s.handle s.shown
  serials : Serials s.table s.entries s.dropped
  finalised : Finalised s.repTable.lookup s.registered s.finalised

namespace Serials

variable {table : Nat → Option Entry} {entries : Nat} {dropped : List Nat} {h : Nat} {e : Entry}

theorem empty : Serials (fun _ => none) 0 [] where
  index _ _ h := by cases h
  entry _ _ h := by cases h
  apart _ _ _ _ h := by cases h
  past _ h := by cases h
  nodup := List.nodup_nil

theorem enter (hs : Serials table entries dropped) (hh : h ≠ 0) (he : e.serial = entries) :
    Serials (Function.update table h (some e)) (entries + 1) dropped := by
  have hnew : entries ∉ dropped := fun hd => absurd (hs.past _ hd) (Nat.lt_irrefl _)
  have hold : ∀ k e', Function.update table h (some e) k = some e' →
      k = h ∧ e' = e ∨ k ≠ h ∧ table k = some e' := by
    intro k e' hk
    by_cases hkh : k = h
    · rw [hkh, Function.update_self] at hk
      exact Or.inl ⟨hkh, (Option.some.inj hk).symm⟩
    · rw [Function.update_of_ne hkh] at hk
      exact Or.inr ⟨hkh, hk⟩
  refine ⟨fun k e' hk => ?_, fun k e' hk => ?_, fun k k' e₁ e₂ hk hk' heq => ?_,
    fun d hd => Nat.lt_succ_of_lt (hs.past d hd), hs.nodup⟩
  · rcases hold k e' hk with ⟨rfl, -⟩ | ⟨-, hk⟩
    · exact hh
    · exact hs.index k e' hk
  · rcases hold k e' hk with ⟨-, rfl⟩ | ⟨-, hk⟩
    · exact ⟨by omega, he ▸ hnew⟩
    · exact ⟨Nat.lt_succ_of_lt (hs.entry k e' hk).1, (hs.entry k e' hk).2⟩
  · rcases hold k e₁ hk with ⟨rfl, rfl⟩ | ⟨-, h₁⟩ <;>
      rcases hold k' e₂ hk' with ⟨rfl, rfl⟩ | ⟨-, h₂⟩
    · rfl
    · exact absurd (hs.entry k' e₂ h₂).1 (by omega)
    · exact absurd (hs.entry k e₁ h₁).1 (by omega)
    · exact hs.apart k k' e₁ e₂ h₁ h₂ heq

/-- An entry leaves the table, or is marked. -/
theorem change (hs : Serials table entries dropped) (he : table h = some e) {x : Option Entry}
    (hx : ∀ e', x = some e' → e'.serial = e.serial) :
    Serials (Function.update table h x) entries dropped := by
  have hold : ∀ k e', Function.update table h x k = some e' →
      ∃ e₀, table k = some e₀ ∧ e'.serial = e₀.serial := by
    intro k e' hk
    by_cases hkh : k = h
    · rw [hkh, Function.update_self] at hk
      exact ⟨e, hkh ▸ he, hx e' hk⟩
    · rw [Function.update_of_ne hkh] at hk
      exact ⟨e', hk, rfl⟩
  refine ⟨fun k e' hk => ?_, fun k e' hk => ?_, fun k k' e₁ e₂ hk hk' heq => ?_, hs.past,
    hs.nodup⟩
  · obtain ⟨e₀, he₀, -⟩ := hold k e' hk
    exact hs.index k e₀ he₀
  · obtain ⟨e₀, he₀, heq⟩ := hold k e' hk
    exact heq ▸ hs.entry k e₀ he₀
  · obtain ⟨e₀, he₀, heq₀⟩ := hold k e₁ hk
    obtain ⟨e₀', he₀', heq₀'⟩ := hold k' e₂ hk'
    exact hs.apart k k' e₀ e₀' he₀ he₀' (by rw [← heq₀, ← heq₀', heq])

theorem drop (hs : Serials table entries dropped) (he : table h = some e) :
    Serials (Function.update table h none) entries (dropped ++ [e.serial]) := by
  obtain ⟨hlt, hnew⟩ := hs.entry h e he
  have hrest := hs.change he (x := none) fun _ h => by cases h
  refine ⟨hrest.index, fun k e' hk => ⟨(hrest.entry k e' hk).1, fun hd => ?_⟩, hrest.apart,
    fun d hd => ?_, ?_⟩
  · rcases List.mem_append.mp hd with hd | hd
    · exact (hrest.entry k e' hk).2 hd
    · have hkh : k ≠ h := by
        rintro rfl
        rw [Function.update_self] at hk
        cases hk
      rw [Function.update_of_ne hkh] at hk
      exact hkh (hs.apart k h e' e hk he (List.mem_singleton.mp hd))
  · rcases List.mem_append.mp hd with hd | hd
    · exact hs.past d hd
    · exact List.mem_singleton.mp hd ▸ hlt
  · refine List.nodup_append.mpr ⟨hs.nodup, List.nodup_cons.mpr ⟨List.not_mem_nil, List.nodup_nil⟩, fun a ha b hb => ?_⟩
    rintro rfl
    exact hnew (List.mem_singleton.mp hb ▸ ha)

end Serials

namespace Finalised

variable {slots : Nat → Option Nat} {registered finalised : List Nat} {rep i : Nat}

theorem empty : Finalised (fun _ => none) [] [] where
  known _ _ h := by cases h
  once _ h := by cases h
  strangers _ _ := rfl

theorem add (h : Finalised slots registered finalised) (hrep : slots rep = none)
    (hi : i ∉ registered) :
    Finalised (Function.update slots rep (some i)) (registered ++ [i]) finalised := by
  have hstay : ∀ r j, slots r = some j → Function.update slots rep (some i) r = some j := by
    intro r j hr
    have hne : r ≠ rep := by
      rintro rfl
      rw [hrep] at hr
      cases hr
    rw [Function.update_of_ne hne, hr]
  refine ⟨fun r j hr => ?_, fun j hj => ?_, fun j hj => ?_⟩
  · by_cases hrr : r = rep
    · rw [hrr, Function.update_self] at hr
      exact List.mem_append_right _ (List.mem_singleton.mpr (Option.some.inj hr).symm)
    · rw [Function.update_of_ne hrr] at hr
      exact List.mem_append_left _ (h.known r j hr)
  · rcases List.mem_append.mp hj with hj | hj
    · rcases h.once j hj with ⟨⟨r, hr⟩, hcount⟩ | ⟨hr, hcount⟩
      · exact Or.inl ⟨⟨r, hstay r j hr⟩, hcount⟩
      · refine Or.inr ⟨fun r heq => ?_, hcount⟩
        by_cases hrr : r = rep
        · rw [hrr, Function.update_self] at heq
          exact hi (Option.some.inj heq ▸ hj)
        · rw [Function.update_of_ne hrr] at heq
          exact hr r heq
    · obtain rfl := List.mem_singleton.mp hj
      exact Or.inl ⟨⟨rep, Function.update_self ..⟩, h.strangers j hi⟩
  · exact h.strangers j fun hmem => hj (List.mem_append_left _ hmem)

theorem remove (h : Finalised slots registered finalised) (hrep : slots rep = some i)
    (hone : ∀ r, slots r = some i → r = rep) :
    Finalised (Function.update slots rep none) registered (finalised ++ [i]) := by
  have hshrink : ∀ r j, Function.update slots rep none r = some j →
      r ≠ rep ∧ slots r = some j := by
    intro r j hr
    by_cases hrr : r = rep
    · rw [hrr, Function.update_self] at hr
      cases hr
    · rw [Function.update_of_ne hrr] at hr
      exact ⟨hrr, hr⟩
  refine ⟨fun r j hr => h.known r j (hshrink r j hr).2, fun j hj => ?_, fun j hj => ?_⟩
  · rw [List.count_append, List.count_singleton]
    by_cases hji : i = j
    · subst hji
      rcases h.once i hj with ⟨-, hcount⟩ | ⟨hgone, -⟩
      · refine Or.inr ⟨fun r hr => ?_, by simp [hcount]⟩
        obtain ⟨hne, hr⟩ := hshrink r i hr
        exact hne (hone r hr)
      · exact absurd hrep (hgone rep)
    · have hne : (i == j) = false := by simpa using hji
      rw [hne, if_neg (by simp), Nat.add_zero]
      rcases h.once j hj with ⟨⟨r, hr⟩, hcount⟩ | ⟨hgone, hcount⟩
      · refine Or.inl ⟨⟨r, ?_⟩, hcount⟩
        rw [Function.update_of_ne]
        · exact hr
        · rintro rfl
          rw [hrep] at hr
          exact hji (Option.some.inj hr)
      · exact Or.inr ⟨fun r hr => hgone r (hshrink r j hr).2, hcount⟩
  · have hji : i ≠ j := by
      rintro rfl
      exact hj (h.known rep i hrep)
    rw [List.count_append, List.count_singleton, h.strangers j hj, if_neg (by simpa using hji)]

end Finalised

/-! ## What the emitted code does -/

namespace Inv

variable {s : State}

theorem initial : Inv State.initial where
  wf := RepTable.new_wf
  matched := by
    have hown : State.initial.own = fun _ => none := by
      funext p
      cases p <;> rfl
    rw [hown]
    exact Matched.empty
  serials := Serials.empty
  finalised := Finalised.empty

/-- The handle that `Handle` says is there. -/
theorem entry (h : Inv s) {i : Nat} (hi : s.handle i ≠ 0) :
    ∃ e, s.table (s.handle i) = some e ∧ e.inst = i ∧ e.lowered = false := by
  obtain ⟨p, rep, hp⟩ := h.matched.backed i hi
  have hfield := h.matched.field p _ hp
  cases p with
  | abroad x => exact absurd hfield hi
  | table k =>
    obtain ⟨e, he, -, hinst⟩ := State.table_of_own hp
    rw [State.shown_table he] at hfield
    cases hl : e.lowered with
    | true =>
      rw [hl] at hfield
      exact absurd hfield hi
    | false =>
      rw [hl] at hfield
      exact ⟨e, hfield ▸ he, hinst, hl⟩

/-- An instance that was never registered gets a slot and a handle. -/
theorem register (h : Inv s) {i k : Nat} (hk : s.FreeHandle k) (hi : i ∉ s.registered) :
    ∃ s', s.register i k = .ok s' ∧ Inv (s'.setHandle i k) := by
  obtain ⟨rep, t, hadd, hwf, hrep, hlookup⟩ := h.wf.add i
  have hslots : ∀ r, s.repTable.lookup r ≠ some i := fun r hr => hi (h.finalised.known r i hr)
  have hp : s.own (.table k) = none := by
    rw [State.own, hk.2]
    rfl
  have hok : s.register i k =
      .ok ({ s with repTable := t, registered := s.registered ++ [i] }.enter k rep i) := by
    rw [State.register, hadd]
    rfl
  refine ⟨_, hok, hwf, ?_, h.serials.enter hk.1 rfl, hlookup ▸ h.finalised.add hrep hi⟩
  refine (h.matched.create hp hrep hslots (State.shown_congr rfl)).state
    (State.own_update_table (x := some ⟨s.entries, rep, i, false⟩) rfl rfl) hlookup ?_
  rw [State.shown_table (Function.update_self ..)]
  rfl

/-- The component's handle becomes an operand. -/
theorem lend (h : Inv s) {i : Nat} (hi : s.handle i ≠ 0) :
    ∃ s', (s.setHandle i 0).lend (s.handle i) = .ok s' ∧ Inv s' := by
  obtain ⟨e, he, hinst, -⟩ := h.entry hi
  have hok : (s.setHandle i 0).lend (s.handle i) = .ok { s.setHandle i 0 with
      table := Function.update s.table (s.handle i) (some { e with lowered := true }) } := by
    rw [State.lend, State.setHandle, he]
  refine ⟨_, hok, h.wf, ?_, h.serials.change he ?_, h.finalised⟩
  · refine (h.matched.move (State.own_table he) (Or.inr rfl)
      fun r hr _ => State.shown_congr rfl r hr).state ?_ rfl ?_
    · rw [Function.update_idem]
      exact State.own_update_table (x := some { e with lowered := true }) rfl rfl
    · rw [State.shown_table (Function.update_self ..), hinst]
      rfl
  · intro e' heq
    cases heq
    rfl

theorem lowerOwn (h : Inv s) {i k : Nat} (hk : s.FreeHandle k)
    (hs : s.handle i ≠ 0 ∨ i ∉ s.registered) : ∃ s', s.lowerOwn i k = .ok s' ∧ Inv s' := by
  by_cases hi : s.handle i = 0
  · obtain ⟨s₁, hreg, h₁⟩ := h.register hk (hs.resolve_left fun hne => hne hi)
    have hself : (s₁.setHandle i k).handle i = k := Function.update_self ..
    obtain ⟨s', hok, h'⟩ := h₁.lend (i := i) (by rw [hself]; exact hk.1)
    refine ⟨s', ?_, h'⟩
    rw [State.lowerOwn, if_pos hi, hreg, ← hok, hself]
    show (s₁.setHandle i 0).lend k = ((s₁.setHandle i k).setHandle i 0).lend k
    rw [State.setHandle, State.setHandle, State.setHandle, Function.update_idem]
  · obtain ⟨s', hok, h'⟩ := h.lend hi
    exact ⟨s', by rw [State.lowerOwn, if_neg hi, hok], h'⟩

theorem lowerBorrow (h : Inv s) {i k : Nat} (hk : s.FreeHandle k)
    (hs : s.handle i ≠ 0 ∨ i ∉ s.registered) : ∃ s', s.lowerBorrow i k = .ok s' ∧ Inv s' := by
  by_cases hi : s.handle i = 0
  · obtain ⟨s₁, hreg, h₁⟩ := h.register hk (hs.resolve_left fun hne => hne hi)
    refine ⟨_, ?_, h₁⟩
    rw [State.lowerBorrow, if_pos hi, hreg]
    rfl
  · exact ⟨s, by rw [State.lowerBorrow, if_neg hi], h⟩

theorem handOver (h : Inv s) {k x : Nat} {e : Entry} (he : s.table k = some e)
    (hl : e.lowered = true) (hx : s.abroad x = none) :
    ∃ s', s.handOver k x = .ok s' ∧ Inv s' := by
  have hok : s.handOver k x = .ok { s with
      table := Function.update s.table k none
      abroad := Function.update s.abroad x (some ⟨e.rep, e.inst⟩) } := by
    rw [State.handOver, he]
  have hzero : s.handle e.inst = 0 := by
    rw [h.matched.field _ _ (State.own_table he), State.shown_table he, if_pos hl]
  refine ⟨_, hok, h.wf, ?_, h.serials.change he (fun _ heq => nomatch heq), h.finalised⟩
  refine (h.matched.move (q := .abroad x) (State.own_table he) (Or.inl hx)
    fun r hr _ => State.shown_congr rfl r hr).state
      (State.own_update_both (e := none) rfl rfl) rfl ?_
  -- the instance's field was 0 since the handle was lowered
  show s.handle = Function.update s.handle e.inst 0
  rw [← hzero, Function.update_eq_self]

theorem liftOwn (h : Inv s) {x k : Nat} {a : Abroad} (hx : s.abroad x = some a)
    (hk : s.FreeHandle k) : ∃ s', s.liftOwn x k = .ok s' ∧ Inv s' := by
  have hget : s.repTable.get a.rep = .ok a.inst :=
    RepTable.get_eq_ok.mpr (h.matched.slot (.abroad x) a hx)
  have hp : s.own (.table k) = none := by
    rw [State.own, hk.2]
    rfl
  have hok : s.liftOwn x k = .ok (({ s with
      abroad := Function.update s.abroad x none }.enter k a.rep a.inst).setHandle a.inst k) := by
    rw [State.liftOwn, hx]
    dsimp only [State.enter]
    rw [hget]
    rfl
  refine ⟨_, hok, h.wf, ?_, h.serials.enter hk.1 rfl, h.finalised⟩
  refine (h.matched.move (p := .abroad x) (q := .table k) hx (Or.inl hp)
    fun r _ hr => State.shown_congr rfl r hr).state ?_ rfl ?_
  · rw [Function.update_comm (by simp)]
    exact State.own_update_both (e := some ⟨s.entries, a.rep, a.inst, false⟩) rfl rfl
  · rw [State.shown_table (Function.update_self ..)]
    rfl

theorem liftBorrow (h : Inv s) {rep i : Nat} (hl : s.Live rep i) : s.liftBorrow rep = .ok i := by
  obtain ⟨p, hp⟩ := State.live_iff.mp hl
  exact RepTable.get_eq_ok.mpr (h.matched.slot p _ hp)

theorem dispose (h : Inv s) (i : Nat) : ∃ s', s.dispose i = .ok s' ∧ Inv s' := by
  by_cases hi : s.handle i = 0
  · exact ⟨s, by rw [State.dispose, if_neg (not_not_intro hi)], h⟩
  · obtain ⟨e, he, rfl, -⟩ := h.entry hi
    have hslot := h.matched.slot _ _ (State.own_table he)
    obtain ⟨t, ht, hwf, hlookup⟩ := h.wf.remove hslot
    have hok : s.dispose e.inst = .ok (({ s.setHandle e.inst 0 with
        table := Function.update s.table (s.handle e.inst) none
        dropped := s.dropped ++ [e.serial]
        repTable := t
        finalised := s.finalised ++ [e.inst] } : State).setHandle e.inst 0) := by
      rw [State.dispose, if_pos hi, State.resourceDrop, State.setHandle]
      dsimp only
      rw [he]
      dsimp only [State.dtor]
      rw [ht]
      rfl
    refine ⟨_, hok, hwf, ?_, h.serials.drop he, hlookup ▸ h.finalised.remove hslot
      fun r hr => h.matched.one _ r _ hr hslot⟩
    refine (h.matched.delete (State.own_table he)
      fun r hr => State.shown_congr rfl r hr).state
        (State.own_update_table (x := none) rfl rfl) hlookup ?_
    show Function.update (Function.update s.handle e.inst 0) e.inst 0 = _
    rw [Function.update_idem]

theorem hostDrop (h : Inv s) {x : Nat} {a : Abroad} (hx : s.abroad x = some a) :
    ∃ s', s.hostDrop x = .ok s' ∧ Inv s' := by
  have hslot := h.matched.slot (.abroad x) a hx
  obtain ⟨t, ht, hwf, hlookup⟩ := h.wf.remove hslot
  have hok : s.hostDrop x = .ok (({ s with
      abroad := Function.update s.abroad x none
      repTable := t
      finalised := s.finalised ++ [a.inst] } : State).setHandle a.inst 0) := by
    rw [State.hostDrop, hx]
    dsimp only [State.dtor]
    rw [ht]
    rfl
  refine ⟨_, hok, hwf, ?_, h.serials, hlookup ▸ h.finalised.remove hslot
    fun r hr => h.matched.one _ r _ hr hslot⟩
  exact (h.matched.delete (p := .abroad x) hx fun r hr => by cases r <;> rfl).state
    (State.own_update_abroad (x := none) rfl rfl) hlookup rfl

/-! ## Runs -/

/-- An event that may come succeeds, and keeps the invariant. -/
theorem exec (h : Inv s) (e : Event) (ha : s.Allowed e) (hs : s.Sound e) :
    ∃ s', s.exec e = .ok s' ∧ Inv s' := by
  cases e with
  | lowerOwn i k => exact h.lowerOwn ha hs
  | lowerBorrow i k => exact h.lowerBorrow ha hs
  | handOver k x =>
    obtain ⟨⟨e, he, hl⟩, hx⟩ := ha
    exact h.handOver he hl hx
  | liftOwn x k =>
    obtain ⟨⟨a, hx⟩, hk⟩ := ha
    exact h.liftOwn hx hk
  | liftBorrow rep =>
    obtain ⟨i, hl⟩ := ha
    exact ⟨s, by rw [State.exec, h.liftBorrow hl]; rfl, h⟩
  | dispose i => exact h.dispose i
  | hostDrop x =>
    obtain ⟨a, hx⟩ := ha
    exact h.hostDrop hx

theorem kept (h : Inv s) : s.Kept where
  resolves rep i hl := by
    obtain ⟨p, hp⟩ := State.live_iff.mp hl
    exact RepTable.get_eq_ok.mpr (h.matched.slot p _ hp)
  oneSlot := h.matched.one
  handle i := by
    constructor
    · intro hi
      obtain ⟨e, he, hinst, hl⟩ := h.entry hi
      exact ⟨s.handle i, e, he, hinst, hl⟩
    · rintro ⟨k, e, he, rfl, hl⟩
      have hfield := h.matched.field _ _ (State.own_table he)
      rw [State.shown_table he, hl] at hfield
      exact fun hzero => h.serials.index k e he (hfield.symm.trans hzero)
  drops := h.serials.nodup
  finalised i hi := by
    have hlive : (∃ rep, s.Live rep i) ↔ ∃ rep, s.repTable.lookup rep = some i := by
      constructor
      · rintro ⟨rep, hl⟩
        obtain ⟨p, hp⟩ := State.live_iff.mp hl
        exact ⟨rep, h.matched.slot p _ hp⟩
      · rintro ⟨rep, hr⟩
        exact ⟨rep, State.live_iff.mpr (h.matched.owned rep i hr)⟩
    rcases h.finalised.once i hi with ⟨hex, hcount⟩ | ⟨hno, hcount⟩
    · exact Or.inl ⟨hlive.mpr hex, hcount⟩
    · refine Or.inr ⟨fun hl => ?_, hcount⟩
      obtain ⟨rep, hr⟩ := hlive.mp hl
      exact hno rep hr
  runs e ha hs := by
    obtain ⟨s', hok, -⟩ := h.exec e ha hs
    exact ⟨s', hok⟩

theorem reachable (h : soundlyLowered.Reachable s) : Inv s := by
  refine h.invariant ?_ fun s e s' hi ha he => ?_
  · rintro s rfl
    exact initial
  · obtain ⟨s₁, hok, h₁⟩ := hi.exec e ha.1 ha.2
    obtain rfl := Except.ok.inj (hok.symm.trans he)
    exact h₁

end Inv

/-- While every lowered instance is new or the component's, representations,
slots, fields and handles agree, and instances are finalised once. -/
theorem exported_resources_kept {s : State} (h : soundlyLowered.Reachable s) : s.Kept :=
  (Inv.reachable h).kept

/-- Instance 0 is the operand of a call. -/
def lowered : State where
  repTable := ⟨[.value 0], none⟩
  handle _ := 0
  table := Function.update (fun _ => none) 1 (some ⟨0, 0, 0, true⟩)
  abroad _ := none
  entries := 1
  dropped := []
  registered := [0]
  finalised := []

/-- The host owns instance 0. -/
def given : State :=
  { lowered with
    table := fun _ => none
    abroad := Function.update (fun _ => none) 0 (some ⟨0, 0⟩) }

theorem lowered_reachable : soundlyLowered.Reachable lowered := by
  refine (System.Reachable.init State.initial rfl).step _ _ (.lowerOwn 0 1)
    ⟨⟨Nat.one_ne_zero, rfl⟩, Or.inr List.not_mem_nil⟩ ?_
  show State.lowerOwn State.initial 0 1 = _
  simp [State.lowerOwn, State.register, RepTable.add, RepTable.new, State.initial, State.enter,
    State.setHandle, State.lend, lowered, bind, Except.bind]

theorem given_reachable : soundlyLowered.Reachable given := by
  refine lowered_reachable.step _ _ (.handOver 1 0) ⟨⟨⟨_, rfl, rfl⟩, rfl⟩, trivial⟩ ?_
  show State.handOver lowered 1 0 = _
  simp [State.handOver, lowered, given]

theorem exported_resources_kept_given : given.Kept := exported_resources_kept given_reachable

/-- Lowered again while the host owns it, the instance has two slots. -/
theorem lowered_twice_not_kept : ¬ ∀ s, exportedResource.Reachable s → s.Kept := by
  intro hall
  have hgiven : exportedResource.Reachable given :=
    given_reachable.mono (S := soundlyLowered) (fun _ h => h) (fun _ _ h => h.1) rfl
  have hok : given.lowerOwn 0 1 = .ok { given with
      repTable := ⟨[.value 0, .value 0], none⟩
      table := Function.update (fun _ => none) 1 (some ⟨1, 1, 0, true⟩)
      entries := 2
      registered := [0, 0] } := by
    simp [State.lowerOwn, State.register, RepTable.add, State.enter, State.setHandle, State.lend,
      given, lowered, bind, Except.bind]
  have hkept := hall _ (hgiven.step _ _ (.lowerOwn 0 1) ⟨Nat.one_ne_zero, rfl⟩ hok)
  exact absurd (hkept.oneSlot 0 0 1 rfl rfl) Nat.zero_ne_one

end WitBindgen.CSharp
