import WitBindgen.Library.Handles
import WitBindgen.Library.Runs
import Mathlib.Data.List.Basic

/-!
# Exported resources

`type_resource` of the MoonBit backend prints one wrapper for a resource that the
component exports, `struct R(Int)`. User code gets wrappers from four places: from
`R::new` and from an `own` parameter with the index of a handle in the component's
table, from a `borrow` parameter and from the destructor's export with the
representation, as the host has no handle for the component there. `R::rep` and
`R::drop` call the host with the number in any case.
-/

namespace WitBindgen.Moonbit.Exported

/-- MoonBit's `Int`. -/
abbrev Word := BitVec 32

/-- What one call of `R::new` made, with the representation it was given. -/
structure Instance where
  serial : Nat
  rep : Word
  deriving DecidableEq

/-- `pub(all) struct R(Int)`. -/
structure R where
  num : Word
  deriving DecidableEq

/-- The host stops the component. -/
inductive Trap where
  | unknownHandle
  deriving DecidableEq

/-- The component's own handles, the instances whose handle is elsewhere, and the
wrappers that user code was handed and has not given up, with what they stand for. -/
structure State where
  table : Handles Word Instance
  abroad : List Instance
  made : Nat
  held : List (R × Instance)

namespace State

def hand (s : State) (r : R) (i : Instance) : State := { s with held := (r, i) :: s.held }

def giveUp (s : State) (r : R) (i : Instance) : State := { s with held := s.held.erase (r, i) }

/-- The host takes the handle at an index out of the table. -/
def takeOut (s : State) (h : Word) : Except Trap (Instance × State) :=
  match s.table h with
  | some i => .ok (i, { s with table := s.table.erase h })
  | none => .error .unknownHandle

def wasmExportResourceNew (s : State) (rep h : Word) : Word × State :=
  (h, { s with table := s.table.put h ⟨s.made, rep⟩, made := s.made + 1 })

/-- The handle's instance is what the host calls the destructor for. -/
def wasmExportResourceDrop (s : State) (resource : Word) : Except Trap (Instance × State) :=
  s.takeOut resource

def wasmExportResourceRep (s : State) (resource : Word) : Except Trap Word :=
  match s.table resource with
  | some i => .ok i.rep
  | none => .error .unknownHandle

end State

namespace R

/-- The host chose `h` for the handle. -/
def new (s : State) (rep h : Word) : R × State :=
  let (handle, s) := s.wasmExportResourceNew rep h
  (⟨handle⟩, s)

def drop (self : R) (s : State) : Except Trap (Instance × State) :=
  let ⟨resource⟩ := self
  s.wasmExportResourceDrop resource

def rep (self : R) (s : State) : Except Trap Word :=
  let ⟨resource⟩ := self
  s.wasmExportResourceRep resource

end R

/-- `HandleLift`, of an `own` and of a `borrow`. -/
def handleLift (op : Word) : R := ⟨op⟩

/-- `HandleLower`. -/
def handleLower (op : R) : Word :=
  let ⟨handle⟩ := op
  handle

/-- What `wasmExportRDtor` gives to `R::dtor`. -/
def wasmExportDtor (handle : Word) : R := ⟨handle⟩

inductive Event where
  /-- User code calls `R::new`. -/
  | new (rep h : Word)
  /-- The host calls a function that takes the resource. -/
  | own (i : Instance) (h : Word)
  /-- The host calls a method, or another function that borrows the resource. -/
  | borrow (i : Instance)
  /-- The host drops its handle. -/
  | dtor (i : Instance)
  /-- User code calls `R::drop`. -/
  | drop (r : R) (i : Instance)
  /-- User code returns the resource, or gives it to an import. -/
  | give (r : R) (i : Instance)
  /-- User code is done with a wrapper. -/
  | done (r : R) (i : Instance)

def init : State := ⟨.empty, [], 0, []⟩

/-- The host chooses free indices, and lends, passes and drops what it owns. User
code uses wrappers that it was handed. -/
def allowed (s : State) : Event → Prop
  | .new _ h => h ≠ 0 ∧ s.table h = none
  | .own i h => i ∈ s.abroad ∧ h ≠ 0 ∧ s.table h = none
  | .borrow i => i ∈ s.abroad
  | .dtor i => i ∈ s.abroad
  | .drop r i => (r, i) ∈ s.held
  | .give r i => (r, i) ∈ s.held
  | .done r i => (r, i) ∈ s.held

def exec (s : State) : Event → Except Trap State
  | .new rep h =>
    let (r, s') := R.new s rep h
    .ok (s'.hand r ⟨s.made, rep⟩)
  | .own i h =>
    let s' := { s with table := s.table.put h i, abroad := s.abroad.erase i }
    .ok (s'.hand (handleLift h) i)
  | .borrow i => .ok (s.hand (handleLift i.rep) i)
  | .dtor i => .ok ({ s with abroad := s.abroad.erase i }.hand (wasmExportDtor i.rep) i)
  | .drop r i => do
      let (j, s') ← r.drop s
      .ok ((s'.giveUp r i).hand (wasmExportDtor j.rep) j)
  | .give r i => do
      let (j, s') ← s.takeOut (handleLower r)
      .ok { s'.giveUp r i with abroad := j :: s.abroad }
  | .done r i => .ok (s.giveUp r i)

def system : System State Event Trap := ⟨(· = init), allowed, exec⟩

/-! ## What wrappers are good for -/

/-- `R::rep` returns what `R::new` was given, and `R::drop` has a handle to drop. -/
def Usable (s : State) (r : R) (i : Instance) : Prop :=
  r.rep s = .ok i.rep ∧ ∃ j s', r.drop s = .ok (j, s')

/-- Every wrapper in the hands of user code is. -/
def AllUsable (s : State) : Prop := ∀ q ∈ s.held, Usable s q.1 q.2

/-- The component has, at the index `rep`, a handle for something with the
representation `rep`. -/
def Coincides (t : Handles Word Instance) (rep : Word) : Prop := ∃ j, t rep = some j ∧ j.rep = rep

/-- Where representations are handed over they happen to be indices, and where a
handle goes no other wrapper has its number. -/
def Meets (s : State) : Event → Prop
  | .borrow i => Coincides s.table i.rep
  | .dtor i => Coincides s.table i.rep
  | .drop r i => (∀ q ∈ s.held.erase (r, i), q.1 ≠ r) ∧
      ∀ j, s.table r.num = some j → Coincides (s.table.erase r.num) j.rep
  | .give r i => ∀ q ∈ s.held.erase (r, i), q.1 ≠ r
  | _ => True

def coincidental : System State Event Trap :=
  ⟨(· = init), fun s e => allowed s e ∧ Meets s e, exec⟩

section

variable {s s' : State} {r : R} {i j : Instance} {h : Word}

theorem rep_eq_ok {rep : Word} : r.rep s = .ok rep ↔ ∃ j, s.table r.num = some j ∧ j.rep = rep := by
  rw [R.rep, State.wasmExportResourceRep]
  cases s.table r.num with
  | none => exact iff_of_false nofun (fun ⟨_, h, _⟩ => nomatch h)
  | some j =>
    constructor
    · exact fun h => ⟨j, rfl, Except.ok.inj h⟩
    · rintro ⟨_, ⟨⟩, rfl⟩
      rfl

theorem takeOut_eq_ok : s.takeOut h = .ok (j, s') ↔
    s.table h = some j ∧ s' = { s with table := s.table.erase h } := by
  rw [State.takeOut]
  cases s.table h with
  | none => exact iff_of_false nofun (fun h => nomatch h.1)
  | some j' =>
    constructor
    · intro heq
      cases heq
      exact ⟨rfl, rfl⟩
    · rintro ⟨hj, rfl⟩
      cases hj
      rfl

theorem usable_iff : Usable s r i ↔ ∃ j, s.table r.num = some j ∧ j.rep = i.rep := by
  rw [Usable, rep_eq_ok]
  constructor
  · exact And.left
  · rintro ⟨j, hj, hrep⟩
    exact ⟨⟨j, hj, hrep⟩, j, _, takeOut_eq_ok.mpr ⟨hj, rfl⟩⟩

/-- A representation is usable as a wrapper by coincidence. -/
theorem usable_rep : Usable s ⟨i.rep⟩ i ↔ Coincides s.table i.rep := usable_iff

theorem Usable.congr (ht : s'.table = s.table) : Usable s' r i ↔ Usable s r i := by
  rw [usable_iff, usable_iff, ht]

/-- A handle more takes nothing away. -/
theorem Usable.put (hu : Usable s r i) (hh : s.table h = none)
    (ht : s'.table = s.table.put h j) : Usable s' r i := by
  obtain ⟨k, hk, hrep⟩ := usable_iff.mp hu
  exact usable_iff.mpr ⟨k, ht ▸ Handles.put_of_some hh hk, hrep⟩

/-- A wrapper survives the handle at another index. -/
theorem Usable.erase_iff (hu : Usable s r i) (ht : s'.table = s.table.erase h) :
    Usable s' r i ↔ r.num ≠ h := by
  rw [usable_iff] at hu ⊢
  rw [ht]
  constructor
  · rintro ⟨k, hk, -⟩
    exact (Handles.erase_eq_some.mp hk).1
  · intro hne
    rwa [Handles.erase_of_ne hne]

theorem allUsable_hand (s s' : State) (r : R) (i : Instance) (ht : s'.table = s.table)
    (hh : s'.held = (r, i) :: s.held) : AllUsable s' ↔ Usable s r i ∧ AllUsable s := by
  have hq : ∀ q : R × Instance, Usable s' q.1 q.2 ↔ Usable s q.1 q.2 := fun _ => Usable.congr ht
  rw [AllUsable, hh, List.forall_mem_cons, hq]
  exact and_congr_right' (forall₂_congr fun q _ => hq q)

/-- The wrappers that stay, when a handle goes. -/
theorem allUsable_gone (hs : AllUsable s) (ht : s'.table = s.table.erase r.num)
    (hh : s'.held = s.held.erase (r, i)) :
    AllUsable s' ↔ ∀ q ∈ s.held.erase (r, i), q.1 ≠ r := by
  have hnum : ∀ q : R, q.num ≠ r.num ↔ q ≠ r := by
    rintro ⟨n⟩
    obtain ⟨m⟩ := r
    rw [ne_eq, ne_eq, R.mk.injEq]
  rw [AllUsable, hh]
  refine forall₂_congr fun q hq => ?_
  rw [(hs q (List.mem_of_mem_erase hq)).erase_iff ht]
  exact hnum q.1

end

/-! ## One event -/

/-- An event leaves every wrapper usable exactly if it meets the condition. -/
theorem AllUsable.step {s s' : State} {e : Event} (hs : AllUsable s) (ha : allowed s e)
    (he : exec s e = .ok s') : AllUsable s' ↔ Meets s e := by
  cases e with
  | new rep h =>
    cases he
    refine iff_of_true (List.forall_mem_cons.mpr ⟨?_, fun q hq => ?_⟩) trivial
    · exact usable_iff.mpr ⟨_, Handles.put_self, rfl⟩
    · exact (hs q hq).put ha.2 rfl
  | own i h =>
    cases he
    refine iff_of_true (List.forall_mem_cons.mpr ⟨?_, fun q hq => ?_⟩) trivial
    · exact usable_iff.mpr ⟨_, Handles.put_self, rfl⟩
    · exact (hs q hq).put ha.2.2 rfl
  | borrow i =>
    have hhand := allUsable_hand s s' (handleLift i.rep) i
    cases he
    exact ((hhand rfl rfl).trans (and_iff_left hs)).trans usable_rep
  | dtor i =>
    have hhand := allUsable_hand s s' (wasmExportDtor i.rep) i
    cases he
    exact ((hhand rfl rfl).trans (and_iff_left hs)).trans usable_rep
  | drop r i =>
    rw [exec] at he
    obtain ⟨j, s₁, hdrop, he⟩ : ∃ j s₁, r.drop s = .ok (j, s₁) ∧
        s' = (s₁.giveUp r i).hand (wasmExportDtor j.rep) j := by
      cases hdrop : r.drop s with
      | error _ =>
        rw [hdrop] at he
        cases he
      | ok q =>
        rw [hdrop] at he
        cases he
        exact ⟨q.1, q.2, rfl, rfl⟩
    obtain ⟨hj, rfl⟩ := takeOut_eq_ok.mp hdrop
    let s₁ := { s with table := s.table.erase r.num }.giveUp r i
    have hhand := allUsable_hand s₁ s' (wasmExportDtor j.rep) j
    have hgone : AllUsable s₁ ↔ _ := allUsable_gone hs rfl rfl
    rw [hhand (he ▸ rfl) (he ▸ rfl), hgone, Meets, and_comm]
    refine and_congr_right' ?_
    rw [hj]
    constructor
    · rintro hu _ ⟨⟩
      exact usable_rep.mp hu
    · exact fun hc => usable_rep.mpr (hc j rfl)
  | give r i =>
    rw [exec] at he
    obtain ⟨j, s₁, htake, he⟩ : ∃ j s₁, s.takeOut (handleLower r) = .ok (j, s₁) ∧
        s' = { s₁.giveUp r i with abroad := j :: s.abroad } := by
      cases htake : s.takeOut (handleLower r) with
      | error _ =>
        rw [htake] at he
        cases he
      | ok q =>
        rw [htake] at he
        cases he
        exact ⟨q.1, q.2, rfl, rfl⟩
    obtain ⟨-, rfl⟩ := takeOut_eq_ok.mp htake
    rw [he]
    exact allUsable_gone hs rfl rfl
  | done r i =>
    cases he
    refine iff_of_true (fun q hq => ?_) trivial
    have hu : Usable (s.giveUp r i) q.1 q.2 ↔ Usable s q.1 q.2 := Usable.congr rfl
    exact hu.mpr (hs q (List.mem_of_mem_erase hq))

/-! ## Runs -/

/-- In runs whose events meet the condition every wrapper in the hands of user code
is usable, and the first event that does not meet it leaves one that is not. -/
theorem wrappers_usable {s : State} (hs : coincidental.Reachable s) : AllUsable s ∧
    ∀ e s', allowed s e → exec s e = .ok s' → (AllUsable s' ↔ Meets s e) := by
  have hall : AllUsable s := by
    refine System.Reachable.invariant (S := coincidental) (I := AllUsable) ?_ ?_ hs
    · rintro _ rfl
      exact fun q hq => absurd hq List.not_mem_nil
    · exact fun s e s' hs ha he => (hs.step ha.1 he).mpr ha.2
  exact ⟨hall, fun e s' ha he => hall.step ha he⟩

/-- Two instances with one representation, and the second one's handle has it for
its index. -/
def coincidence : State :=
  ⟨.put (.erase (.put .empty 1 ⟨0, 7⟩) 1) 7 ⟨1, 7⟩, [⟨0, 7⟩], 2, [(⟨7⟩, ⟨1, 7⟩)]⟩

theorem coincidence_reachable : coincidental.Reachable coincidence :=
  .step _ _ (.new 7 7)
    (.step _ _ (.give ⟨1⟩ ⟨0, 7⟩)
      (.step _ _ (.new 7 1) (.init init rfl) ⟨⟨by decide, rfl⟩, trivial⟩ rfl)
      ⟨List.mem_singleton.mpr rfl, fun q hq => absurd hq List.not_mem_nil⟩ rfl)
    ⟨⟨by decide, rfl⟩, trivial⟩ rfl

theorem wrappers_usable_coincidence : AllUsable coincidence ∧
    AllUsable (coincidence.hand ⟨7⟩ ⟨0, 7⟩) :=
  ⟨(wrappers_usable coincidence_reachable).1,
    ((wrappers_usable coincidence_reachable).2 (.borrow ⟨0, 7⟩) _ (List.mem_singleton.mpr rfl)
      rfl).mpr ⟨⟨1, 7⟩, rfl, rfl⟩⟩

/-- An instance with the representation 5 goes to the host, which calls a method:
`self` is `R(5)`, and 5 is no index of the table. -/
theorem self_unusable : ¬ ∀ s, system.Reachable s → AllUsable s := by
  have hr : system.Reachable (State.hand ⟨.erase (.put .empty 1 ⟨0, 5⟩) 1, [⟨0, 5⟩], 1, []⟩
      ⟨5⟩ ⟨0, 5⟩) :=
    .step _ _ (.borrow ⟨0, 5⟩)
      (.step _ _ (.give ⟨1⟩ ⟨0, 5⟩)
        (.step _ _ (.new 5 1) (.init init rfl) ⟨by decide, rfl⟩ rfl)
        (List.mem_singleton.mpr rfl) rfl)
      (List.mem_singleton.mpr rfl) rfl
  intro h
  obtain ⟨j, hj, -⟩ := usable_iff.mp (h _ hr (⟨5⟩, ⟨0, 5⟩) (List.mem_cons_self ..))
  cases hj

end WitBindgen.Moonbit.Exported
