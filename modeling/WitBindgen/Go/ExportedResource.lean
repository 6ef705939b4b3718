import WitBindgen.Library.Handles
import WitBindgen.Library.Runs
import Mathlib.Data.List.Count

/-!
# Exported resources

What `type_resource` of the Go backend prints for a resource that the component
exports. An instance is a Go object, pinned while the host has its address as a
representation, with a field for its handle. The host's table and the handles that
left the component are part of the state, as is the list of the handles that a call
under way has taken and may have to set back.
-/

namespace WitBindgen.Go.Exported

inductive Fault where
  /-- `panic("invalid handle")`. -/
  | invalidHandle
  /-- The host stops the component. -/
  | trap
  deriving DecidableEq

/-- `table` has the component's own handles, `abroad` the instances whose handle is
elsewhere, `handle` and `pinned` the objects' fields `handle` and `pinner`, `onDrops`
the calls of `OnDrop`, and `taken` those of `TakeHandle`. -/
structure State where
  table : Handles Nat Nat
  abroad : List Nat
  handle : Nat → Nat
  pinned : Nat → Bool
  onDrops : List Nat
  taken : List Nat
  pending : List (Nat × Nat)

namespace State

def resourceNew (s : State) (pointer h : Nat) : Nat × State :=
  (h, { s with table := s.table.put h pointer })

def resourceRep (s : State) (handle : Nat) : Except Fault Nat :=
  match s.table handle with
  | some pointer => .ok pointer
  | none => .error .trap

/-- `#[dtor]`. -/
def resourceDtor (s : State) (rep : Nat) : State :=
  { s with
    handle := Function.update s.handle rep 0
    pinned := Function.update s.pinned rep false
    onDrops := rep :: s.onDrops }

/-- The host takes the handle out of the table and calls the destructor. -/
def resourceDrop (s : State) (handle : Nat) : Except Fault State :=
  match s.table handle with
  | some rep => .ok ({ s with table := s.table.erase handle }.resourceDtor rep)
  | none => .error .trap

/-- The host chose `h` for the handle. -/
def takeHandle (s : State) (self h : Nat) : Nat × State :=
  let s := { s with pinned := Function.update s.pinned self true }
  let (handle, s) := s.resourceNew self h
  (handle, { s with handle := Function.update s.handle self handle, taken := self :: s.taken })

def setHandle (s : State) (self handle : Nat) : Except Fault State :=
  if s.handle self ≠ handle then .error .invalidHandle else .ok s

def drop (s : State) (self : Nat) : Except Fault State :=
  let handle := s.handle self
  if s.handle self ≠ 0 then do
    let s := { s with handle := Function.update s.handle self 0 }
    let s ← s.resourceDrop handle
    .ok { s with
      pinned := Function.update s.pinned self false
      onDrops := self :: s.onDrops }
  else .ok s

def fromOwnHandle (s : State) (handle : Nat) : Except Fault Nat := s.resourceRep handle

def fromBorrowHandle (rep : Nat) : Nat := rep

theorem setHandle_eq {s : State} {self handle : Nat} (h : s.handle self = handle) :
    s.setHandle self handle = .ok s := if_neg (not_not.mpr h)

theorem drop_zero {s : State} {self : Nat} (h : s.handle self = 0) : s.drop self = .ok s :=
  if_neg (not_not.mpr h)

/-- `resource-drop` calls the destructor, and `Drop` goes on as if it had not. -/
theorem drop_owned {s : State} {self : Nat} (h : s.handle self ≠ 0)
    (hh : s.table (s.handle self) = some self) :
    ∃ s', s.drop self = .ok s' ∧ s'.onDrops = self :: self :: s.onDrops := by
  rw [drop, if_pos h]
  simp only [resourceDrop, hh]
  exact ⟨_, rfl, rfl⟩

end State

inductive Event where
  /-- `TakeHandle` of an instance that is lowered. -/
  | take (i h : Nat)
  /-- The host takes the handle: the call it was lowered for succeeds. -/
  | transfer (i h : Nat)
  /-- `SetHandle`: the call fails. -/
  | undo (i h : Nat)
  /-- The host gives a handle back. -/
  | own (i h : Nat)
  /-- The host calls a method. -/
  | borrow (i : Nat)
  | drop (i : Nat)
  /-- The host drops its handle. -/
  | dtor (i : Nat)
  deriving DecidableEq

def init : State := ⟨.empty, [], fun _ => 0, fun _ => false, [], [], []⟩

/-- Indices are free, `SetHandle` undoes a `TakeHandle`, and the host passes, lends
and drops what it owns. -/
def allowed (s : State) : Event → Prop
  | .take _ h => h ≠ 0 ∧ s.table h = none
  | .transfer i h => (i, h) ∈ s.pending
  | .undo i h => (i, h) ∈ s.pending
  | .own i h => i ∈ s.abroad ∧ h ≠ 0 ∧ s.table h = none
  | .borrow i => i ∈ s.abroad
  | .drop _ => True
  | .dtor i => i ∈ s.abroad

def exec (s : State) : Event → Except Fault State
  | .take i h =>
    let (handle, s) := s.takeHandle i h
    .ok { s with pending := (i, handle) :: s.pending }
  | .transfer _ h =>
    match s.table h with
    | some j => .ok { s with
        table := s.table.erase h
        abroad := j :: s.abroad
        pending := s.pending.filter (·.2 ≠ h) }
    | none => .error .trap
  | .undo i h => do
      let s ← s.setHandle i h
      .ok { s with pending := s.pending.erase (i, h) }
  | .own i h => do
      let s := { s with table := s.table.put h i, abroad := s.abroad.erase i }
      let _self ← s.fromOwnHandle h
      .ok s
  | .borrow i =>
    let _self := State.fromBorrowHandle i
    .ok s
  | .drop i => s.drop i
  | .dtor i => .ok ({ s with abroad := s.abroad.erase i }.resourceDtor i)

def system : System State Event Fault := ⟨(· = init), allowed, exec⟩

/-! ## What is to hold -/

/-- A handle for the instance exists. -/
def Live (s : State) (i : Nat) : Prop := s.table.Holds i ∨ i ∈ s.abroad

/-- The field is zero, or the component's handle for the instance. -/
def FieldOwned (s : State) : Prop := ∀ i, s.handle i = 0 ∨ s.table (s.handle i) = some i

/-- Instances are pinned while they have a handle, and told once when they have none
any more. -/
structure Tended (s : State) : Prop where
  pinned : ∀ i, s.pinned i = true ↔ Live s i
  early : ∀ i, Live s i → s.onDrops.count i = 0
  never : ∀ i, i ∉ s.taken → s.onDrops.count i = 0
  once : ∀ i ∈ s.taken, ¬ Live s i → s.onDrops.count i = 1

/-- `resource-new` is called for instances without a handle, and `resource-drop` with
the component's handle for the instance. -/
def CallsOwned (s : State) : Event → Prop
  | .take i _ => ¬ Live s i
  | .drop i => s.handle i ≠ 0 → s.table (s.handle i) = some i
  | _ => True

/-- `TakeHandle` is called once, and `Drop` has nothing to do. -/
def Sound (s : State) : Event → Prop
  | .take i _ => i ∉ s.taken
  | .drop i => s.handle i = 0
  | _ => True

/-- No handle leaves the component, either. -/
def Kept (s : State) : Event → Prop
  | .transfer _ _ => False
  | e => Sound s e

def sound : System State Event Fault := ⟨(· = init), fun s e => allowed s e ∧ Sound s e, exec⟩

def kept : System State Event Fault := ⟨(· = init), fun s e => allowed s e ∧ Kept s e, exec⟩

/-! ## Sound runs -/

/-- Each instance has at most one handle. -/
structure Placed (s : State) : Prop where
  single : s.table.Single
  nodup : s.abroad.Nodup
  apart : ∀ i ∈ s.abroad, ¬ s.table.Holds i

structure Inv (s : State) : Prop where
  placed : Placed s
  taken : ∀ i, Live s i → i ∈ s.taken
  field : ∀ i, s.handle i ≠ 0 ↔ Live s i
  pending : ∀ i h, (i, h) ∈ s.pending → s.handle i = h ∧ s.table h = some i
  tended : Tended s

theorem init_inv : Inv init where
  placed := ⟨Handles.empty_single, List.nodup_nil, fun _ hi => nomatch hi⟩
  taken _ hi := hi.elim (fun hi => absurd hi Handles.not_holds_empty) (fun hi => nomatch hi)
  field _ := iff_of_false (fun hi => hi rfl)
    (fun hi => hi.elim (fun hi => absurd hi Handles.not_holds_empty) (fun hi => nomatch hi))
  pending _ _ hp := nomatch hp
  tended := by
    have hlive : ∀ i, ¬ Live init i := fun i hi =>
      hi.elim (fun hi => absurd hi Handles.not_holds_empty) (fun hi => nomatch hi)
    exact ⟨fun i => iff_of_false Bool.false_ne_true (hlive i), fun _ _ => rfl, fun _ _ => rfl,
      fun _ hi => nomatch hi⟩

section

variable {s s' : State} {i h : Nat}

theorem Tended.count_le (ht : Tended s) (i : Nat) : s.onDrops.count i ≤ 1 := by
  by_cases hl : Live s i
  · exact ht.early i hl ▸ Nat.zero_le 1
  · by_cases htk : i ∈ s.taken
    · exact Nat.le_of_eq (ht.once i htk hl)
    · exact ht.never i htk ▸ Nat.zero_le 1

/-- A handle that stays in the world leaves instances alone. -/
theorem Tended.congr (ht : Tended s) (hlive : ∀ j, Live s' j ↔ Live s j)
    (hpinned : s'.pinned = s.pinned) (hdrops : s'.onDrops = s.onDrops)
    (htaken : s'.taken = s.taken) : Tended s' where
  pinned j := by rw [hpinned, hlive, ht.pinned]
  early j hj := by rw [hdrops, ht.early j ((hlive j).mp hj)]
  never j hj := by rw [hdrops, ht.never j (htaken ▸ hj)]
  once j hj hdead := by rw [hdrops, ht.once j (htaken ▸ hj) (mt (hlive j).mpr hdead)]

/-- A new handle. -/
theorem Tended.create (ht : Tended s) (hi : i ∉ s.taken)
    (hlive : ∀ j, Live s' j ↔ j = i ∨ Live s j)
    (hpinned : s'.pinned = Function.update s.pinned i true) (hdrops : s'.onDrops = s.onDrops)
    (htaken : s'.taken = i :: s.taken) : Tended s' where
  pinned j := by
    rw [hpinned, hlive]
    by_cases hj : j = i
    · rw [hj, Function.update_self]
      exact iff_of_true rfl (Or.inl rfl)
    · rw [Function.update_of_ne hj, ht.pinned]
      exact (or_iff_right hj).symm
  early j hj := by
    rw [hdrops]
    rcases (hlive j).mp hj with rfl | hj
    · exact ht.never j hi
    · exact ht.early j hj
  never j hj := by
    rw [htaken, List.mem_cons, not_or] at hj
    rw [hdrops, ht.never j hj.2]
  once j hj hdead := by
    rw [hlive, not_or] at hdead
    rw [htaken, List.mem_cons] at hj
    rw [hdrops, ht.once j (hj.resolve_left hdead.1) hdead.2]

/-- The last handle is gone. -/
theorem Tended.destroy (ht : Tended s) (hi : Live s i) (htk : i ∈ s.taken)
    (hlive : ∀ j, Live s' j ↔ Live s j ∧ j ≠ i)
    (hpinned : s'.pinned = Function.update s.pinned i false)
    (hdrops : s'.onDrops = i :: s.onDrops) (htaken : s'.taken = s.taken) : Tended s' where
  pinned j := by
    rw [hpinned, hlive]
    by_cases hj : j = i
    · rw [hj, Function.update_self]
      exact iff_of_false Bool.false_ne_true (fun h => h.2 rfl)
    · rw [Function.update_of_ne hj, ht.pinned]
      exact (and_iff_left hj).symm
  early j hj := by
    obtain ⟨hj, hne⟩ := (hlive j).mp hj
    rw [hdrops, List.count_cons_of_ne hne.symm, ht.early j hj]
  never j hj := by
    rw [htaken] at hj
    have hne : i ≠ j := fun heq => hj (heq ▸ htk)
    rw [hdrops, List.count_cons_of_ne hne, ht.never j hj]
  once j hj hdead := by
    rw [htaken] at hj
    rw [hdrops]
    by_cases hji : j = i
    · rw [hji, List.count_cons_self, ht.early i hi]
    · have hold : ¬ Live s j := fun hl => hdead ((hlive j).mpr ⟨hl, hji⟩)
      rw [List.count_cons_of_ne (Ne.symm hji), ht.once j hj hold]

end

/-! ## Events -/

section

variable {s s' : State} {e : Event} {i h : Nat}

/-- A handle that is taken out of the table goes abroad. -/
theorem Placed.transfer (hp : Placed s) (hh : s.table h = some i)
    (ht : s'.table = s.table.erase h) (ha : s'.abroad = i :: s.abroad) :
    Placed s' ∧ ∀ j, Live s' j ↔ Live s j := by
  have hi : i ∉ s.abroad := fun hi => hp.apart i hi ⟨h, hh⟩
  have hholds : ∀ j, s'.table.Holds j ↔ s.table.Holds j ∧ j ≠ i := by
    intro j
    rw [ht]
    exact Handles.holds_erase hp.single hh
  refine ⟨⟨ht ▸ hp.single.erase, ha ▸ List.nodup_cons.mpr ⟨hi, hp.nodup⟩, fun j hj => ?_⟩, fun j => ?_⟩
  · rw [ha, List.mem_cons] at hj
    rw [hholds]
    rintro ⟨hheld, hne⟩
    exact hp.apart j (hj.resolve_left hne) hheld
  · rw [Live, Live, hholds, ha, List.mem_cons]
    by_cases hji : j = i
    · rw [hji]
      exact iff_of_true (Or.inr (Or.inl rfl)) (Or.inl ⟨h, hh⟩)
    · rw [and_iff_left hji, or_iff_right hji]

/-- And comes back. -/
theorem Placed.own (hp : Placed s) (hi : i ∈ s.abroad) (hh : s.table h = none)
    (ht : s'.table = s.table.put h i) (ha : s'.abroad = s.abroad.erase i) :
    Placed s' ∧ ∀ j, Live s' j ↔ Live s j := by
  have hholds : ∀ j, s'.table.Holds j ↔ j = i ∨ s.table.Holds j := by
    intro j
    rw [ht]
    exact Handles.holds_put hh
  have habroad : ∀ j, j ∈ s'.abroad ↔ j ≠ i ∧ j ∈ s.abroad := by
    intro j
    rw [ha]
    exact hp.nodup.mem_erase_iff
  refine ⟨⟨ht ▸ hp.single.put (hp.apart i hi), ha ▸ hp.nodup.erase i, fun j hj => ?_⟩, fun j => ?_⟩
  · obtain ⟨hne, hj⟩ := (habroad j).mp hj
    rw [hholds]
    exact fun hheld => hp.apart j hj (hheld.resolve_left hne)
  · rw [Live, Live, hholds, habroad]
    by_cases hji : j = i
    · rw [hji]
      exact iff_of_true (Or.inl (Or.inl rfl)) (Or.inr hi)
    · rw [or_iff_right hji, and_iff_right hji]

/-- A handle for an instance that had none. -/
theorem Placed.create (hp : Placed s) (hi : ¬ Live s i) (hh : s.table h = none)
    (ht : s'.table = s.table.put h i) (ha : s'.abroad = s.abroad) :
    Placed s' ∧ ∀ j, Live s' j ↔ j = i ∨ Live s j := by
  have hholds : ∀ j, s'.table.Holds j ↔ j = i ∨ s.table.Holds j := by
    intro j
    rw [ht]
    exact Handles.holds_put hh
  refine ⟨⟨ht ▸ hp.single.put fun hheld => hi (Or.inl hheld), ha ▸ hp.nodup, fun j hj => ?_⟩,
    fun j => ?_⟩
  · rw [ha] at hj
    rw [hholds]
    rintro (rfl | hheld)
    · exact hi (Or.inr hj)
    · exact hp.apart j hj hheld
  · rw [Live, Live, hholds, ha, or_assoc]

/-- The host drops a handle. -/
theorem Placed.destroy (hp : Placed s) (hi : i ∈ s.abroad) (ht : s'.table = s.table)
    (ha : s'.abroad = s.abroad.erase i) : Placed s' ∧ ∀ j, Live s' j ↔ Live s j ∧ j ≠ i := by
  have habroad : ∀ j, j ∈ s'.abroad ↔ j ≠ i ∧ j ∈ s.abroad := by
    intro j
    rw [ha]
    exact hp.nodup.mem_erase_iff
  refine ⟨⟨ht ▸ hp.single, ha ▸ hp.nodup.erase i, fun j hj => ?_⟩, fun j => ?_⟩
  · rw [ht]
    exact hp.apart j ((habroad j).mp hj).2
  · rw [Live, Live, ht, habroad]
    constructor
    · rintro (hheld | ⟨hne, hj⟩)
      · refine ⟨Or.inl hheld, ?_⟩
        rintro rfl
        exact hp.apart j hi hheld
      · exact ⟨Or.inr hj, hne⟩
    · rintro ⟨hheld | hj, hne⟩
      · exact Or.inl hheld
      · exact Or.inr ⟨hne, hj⟩

theorem Inv.create (hi : Inv s) (htk : i ∉ s.taken) (hh0 : h ≠ 0) (hh : s.table h = none)
    (ht : s'.table = s.table.put h i) (ha : s'.abroad = s.abroad)
    (hf : s'.handle = Function.update s.handle i h)
    (hpin : s'.pinned = Function.update s.pinned i true) (hdrops : s'.onDrops = s.onDrops)
    (htaken : s'.taken = i :: s.taken) (hpend : s'.pending = (i, h) :: s.pending) : Inv s' := by
  have hdead : ¬ Live s i := fun hl => htk (hi.taken i hl)
  obtain ⟨hplaced, hlive⟩ := hi.placed.create hdead hh ht ha
  refine ⟨hplaced, fun j hj => ?_, fun j => ?_, fun j k hjk => ?_,
    hi.tended.create htk hlive hpin hdrops htaken⟩
  · rw [htaken, List.mem_cons]
    exact ((hlive j).mp hj).imp id (hi.taken j)
  · rw [hf, hlive]
    by_cases hji : j = i
    · rw [hji, Function.update_self]
      exact iff_of_true hh0 (Or.inl rfl)
    · rw [Function.update_of_ne hji, hi.field]
      exact (or_iff_right hji).symm
  · rw [hpend, List.mem_cons, Prod.mk.injEq] at hjk
    rw [hf, ht]
    rcases hjk with ⟨rfl, rfl⟩ | hjk
    · exact ⟨Function.update_self .., Handles.put_self⟩
    · obtain ⟨hjf, hjt⟩ := hi.pending j k hjk
      have hji : j ≠ i := by
        rintro rfl
        exact hdead (Or.inl ⟨k, hjt⟩)
      exact ⟨(Function.update_of_ne hji ..).trans hjf, Handles.put_of_some hh hjt⟩

/-- Handles move, and those of calls under way stay. -/
theorem Inv.move (hi : Inv s) (hplaced : Placed s') (hlive : ∀ j, Live s' j ↔ Live s j)
    (hpend : ∀ j k, (j, k) ∈ s'.pending → (j, k) ∈ s.pending ∧ (s.table k = some j →
      s'.table k = some j))
    (hf : s'.handle = s.handle) (hpin : s'.pinned = s.pinned) (hdrops : s'.onDrops = s.onDrops)
    (htaken : s'.taken = s.taken) : Inv s' where
  placed := hplaced
  taken j hj := htaken ▸ hi.taken j ((hlive j).mp hj)
  field j := by rw [hf, hi.field, hlive]
  pending j k hjk := by
    obtain ⟨hjk, hkeep⟩ := hpend j k hjk
    obtain ⟨hjf, hjt⟩ := hi.pending j k hjk
    exact ⟨hf ▸ hjf, hkeep hjt⟩
  tended := hi.tended.congr hlive hpin hdrops htaken

theorem Inv.destroy (hi : Inv s) (hab : i ∈ s.abroad) (ht : s'.table = s.table)
    (ha : s'.abroad = s.abroad.erase i) (hf : s'.handle = Function.update s.handle i 0)
    (hpin : s'.pinned = Function.update s.pinned i false) (hdrops : s'.onDrops = i :: s.onDrops)
    (htaken : s'.taken = s.taken) (hpend : s'.pending = s.pending) : Inv s' := by
  have hlive_i : Live s i := Or.inr hab
  obtain ⟨hplaced, hlive⟩ := hi.placed.destroy hab ht ha
  refine ⟨hplaced, fun j hj => htaken ▸ hi.taken j ((hlive j).mp hj).1, fun j => ?_,
    fun j k hjk => ?_,
    hi.tended.destroy hlive_i (hi.taken i hlive_i) hlive hpin hdrops htaken⟩
  · rw [hf, hlive]
    by_cases hji : j = i
    · rw [hji, Function.update_self]
      exact iff_of_false (fun h => h rfl) (fun h => h.2 rfl)
    · rw [Function.update_of_ne hji, hi.field]
      exact (and_iff_left hji).symm
  · obtain ⟨hjf, hjt⟩ := hi.pending j k (hpend ▸ hjk)
    have hji : j ≠ i := by
      rintro rfl
      exact hi.placed.apart j hab ⟨k, hjt⟩
    exact ⟨by rw [hf, Function.update_of_ne hji, hjf], ht ▸ hjt⟩

/-- What a sound event does: handles move, one more exists, or one less. -/
theorem Inv.step (hi : Inv s) (ha : allowed s e) (hc : Sound s e) :
    ∃ s', exec s e = .ok s' ∧ Inv s' := by
  cases e with
  | take i h => exact ⟨_, rfl, hi.create hc ha.1 ha.2 rfl rfl rfl rfl rfl rfl rfl⟩
  | transfer i h =>
    obtain ⟨-, hh⟩ := hi.pending i h ha
    obtain ⟨s', he, ht, hab, hpend, hrest⟩ : ∃ s', exec s (.transfer i h) = .ok s' ∧
        s'.table = s.table.erase h ∧ s'.abroad = i :: s.abroad ∧
        s'.pending = s.pending.filter (·.2 ≠ h) ∧ s'.handle = s.handle ∧
        s'.pinned = s.pinned ∧ s'.onDrops = s.onDrops ∧ s'.taken = s.taken := by
      rw [exec, hh]
      exact ⟨_, rfl, rfl, rfl, rfl, rfl, rfl, rfl, rfl⟩
    obtain ⟨hf, hpin, hdrops, htaken⟩ := hrest
    obtain ⟨hplaced, hlive⟩ := hi.placed.transfer hh ht hab
    refine ⟨s', he, hi.move hplaced hlive (fun j k hjk => ?_) hf hpin hdrops htaken⟩
    rw [hpend] at hjk
    obtain ⟨hjk, hk⟩ := List.mem_filter.mp hjk
    rw [ht]
    exact ⟨hjk, fun hjt => Handles.erase_eq_some.mpr ⟨of_decide_eq_true hk, hjt⟩⟩
  | undo i h =>
    obtain ⟨hf, -⟩ := hi.pending i h ha
    refine ⟨{ s with pending := s.pending.erase (i, h) }, ?_, ?_⟩
    · rw [exec, State.setHandle_eq hf]
      rfl
    · exact hi.move ⟨hi.placed.single, hi.placed.nodup, hi.placed.apart⟩ (fun _ => Iff.rfl)
        (fun j k hjk => ⟨List.mem_of_mem_erase hjk, id⟩) rfl rfl rfl rfl
  | own i h =>
    obtain ⟨hab, -, hh⟩ := ha
    obtain ⟨s', he, ht, hab', hpend, hrest⟩ : ∃ s', exec s (.own i h) = .ok s' ∧
        s'.table = s.table.put h i ∧ s'.abroad = s.abroad.erase i ∧ s'.pending = s.pending ∧
        s'.handle = s.handle ∧ s'.pinned = s.pinned ∧ s'.onDrops = s.onDrops ∧
        s'.taken = s.taken := by
      simp only [exec, State.fromOwnHandle, State.resourceRep, Handles.put_self]
      exact ⟨_, rfl, rfl, rfl, rfl, rfl, rfl, rfl, rfl⟩
    obtain ⟨hf, hpin, hdrops, htaken⟩ := hrest
    obtain ⟨hplaced, hlive⟩ := hi.placed.own hab hh ht hab'
    refine ⟨s', he, hi.move hplaced hlive (fun j k hjk => ?_) hf hpin hdrops htaken⟩
    rw [ht]
    exact ⟨hpend ▸ hjk, Handles.put_of_some hh⟩
  | borrow i => exact ⟨s, rfl, hi⟩
  | drop i => exact ⟨s, State.drop_zero hc, hi⟩
  | dtor i => exact ⟨_, rfl, hi.destroy ha rfl rfl rfl rfl rfl rfl rfl⟩

/-- An event that is not sound calls the host amiss, fails, or leaves an instance told
too often. -/
theorem Inv.sound_of (hi : Inv s) (hcalls : CallsOwned s e) (he : exec s e = .ok s')
    (ht : Tended s') : Sound s e := by
  cases e with
  | take i h =>
    cases he
    intro htk
    have hearly := ht.early i (Or.inl ⟨h, Function.update_self ..⟩)
    have honce := hi.tended.once i htk hcalls
    exact absurd (honce.symm.trans hearly) Nat.one_ne_zero
  | drop i =>
    by_contra hf
    obtain ⟨s₁, he₁, hdrops⟩ := State.drop_owned hf (hcalls hf)
    cases he₁.symm.trans he
    have htwice : 2 ≤ s'.onDrops.count i := by
      rw [hdrops, List.count_cons_self, List.count_cons_self]
      omega
    have hone := ht.count_le i
    omega
  | _ => trivial

/-! ### The field -/

/-- While fields are handles of the component, no handle is elsewhere. -/
theorem FieldOwned.home (hf : FieldOwned s) (hi : Inv s) : i ∉ s.abroad := by
  intro hab
  have hfield : s.handle i ≠ 0 := (hi.field i).mpr (Or.inr hab)
  exact hi.placed.apart i hab ⟨_, (hf i).resolve_left hfield⟩

/-- In sound runs it is the handle that `TakeHandle` got. -/
theorem Inv.fieldOwned_iff (hi : Inv s) :
    FieldOwned s ↔ ∀ i, Live s i → s.table (s.handle i) = some i := by
  refine forall_congr' fun i => ?_
  rw [← hi.field i]
  exact or_iff_not_imp_left

theorem FieldOwned.step (hf : FieldOwned s) (hi : Inv s) (ha : allowed s e) (hk : Kept s e)
    (he : exec s e = .ok s') : FieldOwned s' := by
  cases e with
  | take i h =>
    cases he
    intro j
    by_cases hji : j = i
    · rw [hji]
      refine Or.inr ?_
      show (s.table.put h i) (Function.update s.handle i h i) = some i
      rw [Function.update_self, Handles.put_self]
    · show Function.update s.handle i h j = 0 ∨
        (s.table.put h i) (Function.update s.handle i h j) = some j
      rw [Function.update_of_ne hji]
      exact (hf j).imp id (Handles.put_of_some ha.2)
  | transfer i h => exact absurd hk id
  | undo i h =>
    rw [exec, State.setHandle_eq (hi.pending i h ha).1] at he
    cases he
    exact hf
  | own i h => exact absurd ha.1 (hf.home hi)
  | borrow i =>
    cases he
    exact hf
  | drop i =>
    cases (State.drop_zero hk).symm.trans he
    exact hf
  | dtor i => exact absurd ha (hf.home hi)

/-- A handle that leaves stays in the field. -/
theorem Inv.kept_of (hi : Inv s) (ha : allowed s e) (hcalls : CallsOwned s e)
    (he : exec s e = .ok s') (hf : FieldOwned s') (ht : Tended s') : Kept s e := by
  have hsound := hi.sound_of hcalls he ht
  cases e with
  | transfer i h =>
    obtain ⟨hfield, hh⟩ := hi.pending i h ha
    have hne : s.handle i ≠ 0 := (hi.field i).mpr (Or.inl ⟨h, hh⟩)
    rw [exec, hh] at he
    cases he
    have hgone := (hf i).resolve_left hne
    have hold : s.table.erase h h = some i := hfield ▸ hgone
    rw [Handles.erase_self] at hold
    cases hold
  | _ => exact hsound

end

/-! ## Runs -/

theorem Kept.sound {s : State} {e : Event} (h : Kept s e) : Sound s e := by
  cases e with
  | transfer i h' => trivial
  | _ => exact h

theorem sound_inv {s : State} (hs : sound.Reachable s) : Inv s := by
  refine System.Reachable.invariant (S := sound) (I := Inv) ?_ ?_ hs
  · rintro _ rfl
    exact init_inv
  · intro s e s' hi ha he
    obtain ⟨s₁, he₁, hinv⟩ := hi.step ha.1 ha.2
    cases he₁.symm.trans he
    exact hinv

theorem sound_of_kept {s : State} (hs : kept.Reachable s) : sound.Reachable s := by
  have hallowed : ∀ s e, kept.allowed s e → sound.allowed s e :=
    fun s e h => ⟨h.1, h.2.sound⟩
  exact System.Reachable.mono (S := kept) (fun _ h => h) hallowed rfl hs

theorem kept_fieldOwned {s : State} (hs : kept.Reachable s) : FieldOwned s := by
  have hboth : Inv s ∧ FieldOwned s := by
    refine System.Reachable.invariant (S := kept) (I := fun s => Inv s ∧ FieldOwned s) ?_ ?_ hs
    · rintro _ rfl
      exact ⟨init_inv, fun _ => Or.inl rfl⟩
    · intro s e s' hi ha he
      obtain ⟨s₁, he₁, hinv⟩ := hi.1.step ha.1 ha.2.sound
      cases he₁.symm.trans he
      exact ⟨hinv, hi.2.step hi.1 ha.1 ha.2 he⟩
  exact hboth.2

theorem Sound.callsOwned {s : State} {e : Event} (hi : Inv s) (h : Sound s e) :
    CallsOwned s e := by
  cases e with
  | take i _ => exact fun hl => h (hi.taken i hl)
  | drop i => exact fun hne => absurd h hne
  | _ => trivial

/-- In runs that take each instance's handle once, drop instances without one and
transfer no handle, everything holds, and the first event outside such runs breaks
something. Where handles are transferred as well, only the field is wrong: it is the
component's handle unless that is elsewhere, or has come back at another index. -/
theorem exported_resource (s : State) :
    (kept.Reachable s → FieldOwned s ∧ Tended s ∧ ∀ e, allowed s e →
      ((CallsOwned s e ∧ ∃ s', exec s e = .ok s' ∧ FieldOwned s' ∧ Tended s') ↔ Kept s e)) ∧
    (sound.Reachable s → Tended s ∧
      (FieldOwned s ↔ ∀ i, Live s i → s.table (s.handle i) = some i) ∧ ∀ e, allowed s e →
      ((CallsOwned s e ∧ ∃ s', exec s e = .ok s' ∧ Tended s') ↔ Sound s e)) := by
  constructor
  · intro hs
    have hi := sound_inv (sound_of_kept hs)
    have hf := kept_fieldOwned hs
    refine ⟨hf, hi.tended, fun e ha => ⟨?_, fun hk => ⟨hk.sound.callsOwned hi, ?_⟩⟩⟩
    · rintro ⟨hcalls, s', he, hf', ht'⟩
      exact hi.kept_of ha hcalls he hf' ht'
    · obtain ⟨s', he, hi'⟩ := hi.step ha hk.sound
      exact ⟨s', he, hf.step hi ha hk he, hi'.tended⟩
  · intro hs
    have hi := sound_inv hs
    refine ⟨hi.tended, hi.fieldOwned_iff, fun e ha => ⟨?_, fun hk => ⟨hk.callsOwned hi, ?_⟩⟩⟩
    · rintro ⟨hcalls, s', he, ht'⟩
      exact hi.sound_of hcalls he ht'
    · obtain ⟨s', he, hi'⟩ := hi.step ha hk
      exact ⟨s', he, hi'.tended⟩

/-- A call that fails after `TakeHandle`. -/
def setBack : State :=
  ⟨.put .empty 1 0, [], Function.update (fun _ => 0) 0 1, Function.update (fun _ => false) 0 true,
    [], [0], []⟩

theorem setBack_reachable : kept.Reachable setBack :=
  .step _ _ (.undo 0 1)
    (.step _ _ (.take 0 1) (.init init rfl) ⟨⟨Nat.one_ne_zero, rfl⟩, List.not_mem_nil⟩ rfl)
    ⟨List.mem_singleton.mpr rfl, trivial⟩ rfl

theorem exported_resource_setBack :
    FieldOwned setBack ∧ (FieldOwned setBack ↔
      ∀ i, Live setBack i → setBack.table (setBack.handle i) = some i) :=
  ⟨((exported_resource setBack).1 setBack_reachable).1,
    ((exported_resource setBack).2 (sound_of_kept setBack_reachable)).2.1⟩

/-- After the failed call, `Drop` tells the instance twice. -/
theorem dropped_twice : ¬ ∀ s, system.Reachable s → FieldOwned s ∧ Tended s := by
  intro h
  obtain ⟨s, he, hdrops⟩ : ∃ s, exec setBack (.drop 0) = .ok s ∧ s.onDrops = [0, 0] :=
    ⟨_, rfl, rfl⟩
  have hr : system.Reachable setBack := .step _ _ (.undo 0 1)
    (.step _ _ (.take 0 1) (.init init rfl) ⟨Nat.one_ne_zero, rfl⟩ rfl)
    (List.mem_singleton.mpr rfl) rfl
  obtain ⟨-, ht⟩ := h s (hr.step _ _ (.drop 0) trivial he)
  have hone := ht.count_le 0
  rw [hdrops] at hone
  exact absurd hone (by decide)

end WitBindgen.Go.Exported
