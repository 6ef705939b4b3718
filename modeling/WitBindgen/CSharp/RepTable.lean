import WitBindgen.Library.Vacancy
import Mathlib.Data.List.Basic

/-!
# The table of representations

`RepTable.cs`: instances of exported resources get an integer, which the host
keeps as the representation of their handles. A removed instance leaves its slot
to the next one that is added.
-/

namespace WitBindgen.CSharp

/-- What the generated code does not survive. -/
inductive Fault where
  /-- `ArgumentException("invalid rep")`. -/
  | invalidRep
  /-- `ArgumentOutOfRangeException` of a list. -/
  | outOfRange
  | invalidCast
  /-- The host stops the component. -/
  | trap
  deriving DecidableEq

inductive Slot (α : Type) where
  | value (v : α)
  | vacant (next : Option Nat)
  deriving DecidableEq

def Slot.value? {α : Type} : Slot α → Option α
  | .value v => some v
  | .vacant _ => none

def Slot.next? {α : Type} : Slot α → Option (Option Nat)
  | .value _ => none
  | .vacant next => some next

structure RepTable (α : Type) where
  list : List (Slot α)
  firstVacant : Option Nat
  deriving DecidableEq

namespace RepTable

variable {α : Type} {t t' : RepTable α} {rep rep' : Nat} {v w : α}

def new : RepTable α := ⟨[], none⟩

def add (t : RepTable α) (v : α) : Except Fault (Nat × RepTable α) :=
  match t.firstVacant with
  | some rep =>
    match t.list[rep]? with
    | some (.vacant next) => .ok (rep, ⟨t.list.set rep (.value v), next⟩)
    | some (.value _) => .error .invalidCast
    | none => .error .outOfRange
  | none => .ok (t.list.length, ⟨t.list ++ [Slot.value v], none⟩)

def get (t : RepTable α) (rep : Nat) : Except Fault α :=
  match t.list[rep]? with
  | some (.vacant _) => .error .invalidRep
  | some (.value v) => .ok v
  | none => .error .outOfRange

def remove (t : RepTable α) (rep : Nat) : Except Fault (α × RepTable α) := do
  let val ← t.get rep
  .ok (val, ⟨t.list.set rep (.vacant t.firstVacant), some rep⟩)

/-! ## The table as a partial function

The vacancy chain is the table's own business: from outside, a table is the
partial function from representations to instances, which `add` extends where it
was undefined and `remove` shrinks.
-/

/-- What the table holds for a representation. -/
def lookup (t : RepTable α) (rep : Nat) : Option α := t.list[rep]?.bind Slot.value?

/-- Where a vacant slot points to. -/
def link (t : RepTable α) (rep : Nat) : Option (Option Nat) := t.list[rep]?.bind Slot.next?

/-- The vacant slots are in the chain. -/
def WF (t : RepTable α) : Prop := ∃ rs, Vacancies t.link t.firstVacant rs

theorem get_eq_ok : t.get rep = .ok v ↔ t.lookup rep = some v := by
  rw [get, lookup]
  rcases t.list[rep]? with _ | v' | next <;> simp [Slot.value?]

theorem list_of_link {next : Option Nat} (h : t.link rep = some next) :
    t.list[rep]? = some (.vacant next) := by
  rw [link] at h
  rcases hl : t.list[rep]? with _ | v' | next' <;> rw [hl] at h
  · cases h
  · cases h
  · rw [← Option.some.inj h]

theorem list_of_lookup (h : t.lookup rep = some v) : t.list[rep]? = some (.value v) := by
  rw [lookup] at h
  rcases hl : t.list[rep]? with _ | v' | next' <;> rw [hl] at h
  · cases h
  · rw [← Option.some.inj h]
  · cases h

theorem lookup_of_list {s : Slot α} (h : t.list[rep]? = some s) : t.lookup rep = s.value? := by
  rw [lookup, h]
  rfl

theorem link_of_list {s : Slot α} (h : t.list[rep]? = some s) : t.link rep = s.next? := by
  rw [link, h]
  rfl

theorem new_wf : (new : RepTable α).WF := ⟨[], Vacancies.empty fun _ => rfl⟩

@[simp] theorem lookup_new : (new : RepTable α).lookup rep = none := rfl

/-- The slots that a write leaves alone hold and point to what they did. -/
theorem lookup_congr (h : t'.list[rep]? = t.list[rep]?) :
    t'.lookup rep = t.lookup rep ∧ t'.link rep = t.link rep := by
  rw [lookup, lookup, link, link, h]
  exact ⟨rfl, rfl⟩

/-- `add` never fails, and extends the table by one representation. -/
theorem WF.add (h : t.WF) (v : α) : ∃ rep t', t.add v = .ok (rep, t') ∧ t'.WF ∧
    t.lookup rep = none ∧ t'.lookup = Function.update t.lookup rep (some v) := by
  obtain ⟨rs, hrs⟩ := h
  cases hf : t.firstVacant with
  | none =>
    have hrest : ∀ r, r ≠ t.list.length →
        (t.list ++ [Slot.value v])[r]? = t.list[r]? := by
      intro r hr
      rcases Nat.lt_or_gt_of_ne hr with hlt | hgt
      · exact List.getElem?_append_left hlt
      · rw [List.getElem?_append_right (Nat.le_of_lt hgt), List.getElem?_eq_none (Nat.le_of_lt hgt),
          List.getElem?_eq_none (by simpa using by omega)]
    have hself : (t.list ++ [Slot.value v])[t.list.length]? = some (.value v) := by simp
    have hnone : t.list[t.list.length]? = none := List.getElem?_eq_none (Nat.le_refl _)
    refine ⟨t.list.length, ⟨t.list ++ [Slot.value v], none⟩, by rw [RepTable.add, hf], ⟨rs, ?_⟩,
      by rw [lookup, hnone]; rfl, funext fun r => ?_⟩
    · rw [hf] at hrs
      refine hrs.congr fun r => ?_
      by_cases hr : r = t.list.length
      · rw [hr, link, link, hself, hnone]
        rfl
      · exact (lookup_congr (hrest r hr)).2
    · by_cases hr : r = t.list.length
      · rw [hr, Function.update_self, lookup_of_list hself]
        rfl
      · rw [Function.update_of_ne hr]
        exact (lookup_congr (hrest r hr)).1
  | some rep =>
    rw [hf] at hrs
    obtain ⟨next, hlink⟩ := hrs.head
    have hslot := list_of_link hlink
    have hlt : rep < t.list.length := (List.getElem?_eq_some_iff.mp hslot).1
    have hself : (t.list.set rep (Slot.value v))[rep]? = some (.value v) :=
      List.getElem?_set_self hlt
    have hrest : ∀ r, r ≠ rep → (t.list.set rep (Slot.value v))[r]? = t.list[r]? :=
      fun r hr => List.getElem?_set_ne (Ne.symm hr)
    refine ⟨rep, ⟨t.list.set rep (.value v), next⟩, by rw [RepTable.add, hf]; simp only [hslot],
      hrs.pop hlink ?_ fun r hr => (lookup_congr (hrest r hr)).2,
      by rw [lookup_of_list hslot]; rfl, funext fun r => ?_⟩
    · rw [link_of_list hself]
      rfl
    · by_cases hr : r = rep
      · rw [hr, Function.update_self, lookup_of_list hself]
        rfl
      · rw [Function.update_of_ne hr]
        exact (lookup_congr (hrest r hr)).1

/-- `remove` returns what the table held, and forgets it. -/
theorem WF.remove (h : t.WF) (hv : t.lookup rep = some v) : ∃ t', t.remove rep = .ok (v, t') ∧
    t'.WF ∧ t'.lookup = Function.update t.lookup rep none := by
  obtain ⟨rs, hrs⟩ := h
  have hslot := list_of_lookup hv
  have hlt : rep < t.list.length := (List.getElem?_eq_some_iff.mp hslot).1
  have hself : (t.list.set rep (Slot.vacant (α := α) t.firstVacant))[rep]? =
      some (.vacant t.firstVacant) := List.getElem?_set_self hlt
  have hrest : ∀ r, r ≠ rep →
      (t.list.set rep (Slot.vacant (α := α) t.firstVacant))[r]? = t.list[r]? :=
    fun r hr => List.getElem?_set_ne (Ne.symm hr)
  have hok : t.remove rep = .ok (v, ⟨t.list.set rep (.vacant t.firstVacant), some rep⟩) := by
    rw [RepTable.remove, get_eq_ok.mpr hv]
    rfl
  refine ⟨_, hok, ⟨rep :: rs, hrs.push ?_ ?_ fun r hr => (lookup_congr (hrest r hr)).2⟩,
    funext fun r => ?_⟩
  · rw [link_of_list hslot]
    rfl
  · rw [link_of_list hself]
    rfl
  · by_cases hr : r = rep
    · rw [hr, Function.update_self, lookup_of_list hself]
      rfl
    · rw [Function.update_of_ne hr]
      exact (lookup_congr (hrest r hr)).1

end RepTable

end WitBindgen.CSharp
