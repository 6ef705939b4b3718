import Mathlib.Logic.Function.Basic
import Mathlib.Tactic.Common

/-!
# Tables of handles

An instance has a table from indices to what they are handles for. The owner of a
table picks a free index for a new entry, reads entries, and takes them out.
-/

/-- What the indices of a table are handles for. -/
def Handles (κ α : Type) := κ → Option α

namespace Handles

variable {κ α : Type} {t t' : Handles κ α} {h k : κ} {a b : α}

def empty : Handles κ α := fun _ => none

@[simp] theorem empty_apply : (empty : Handles κ α) h = none := rfl

/-- Some index is a handle for `a`. -/
def Holds (t : Handles κ α) (a : α) : Prop := ∃ h, t h = some a

/-- Nothing has two handles in the table. -/
def Single (t : Handles κ α) : Prop := ∀ h k a, t h = some a → t k = some a → h = k

theorem empty_single : (empty : Handles κ α).Single := fun _ _ _ hh => nomatch hh

theorem not_holds_empty : ¬ (empty : Handles κ α).Holds a := fun ⟨_, hh⟩ => nomatch hh

/-! ## Entries come and go -/

section

variable [DecidableEq κ]

/-- An entry at an index. -/
def put (t : Handles κ α) (h : κ) (a : α) : Handles κ α := Function.update t h (some a)

/-- The table without an index. -/
def erase (t : Handles κ α) (h : κ) : Handles κ α := Function.update t h none

@[simp] theorem put_self : t.put h a h = some a := Function.update_self ..

@[simp] theorem erase_self : t.erase h h = none := Function.update_self ..

theorem put_of_ne (hk : k ≠ h) : t.put h a k = t k := Function.update_of_ne hk ..

theorem erase_of_ne (hk : k ≠ h) : t.erase h k = t k := Function.update_of_ne hk ..

theorem put_eq_some : t.put h a k = some b ↔ k = h ∧ b = a ∨ k ≠ h ∧ t k = some b := by
  by_cases hk : k = h
  · rw [hk, put_self, Option.some_inj]
    constructor
    · rintro rfl
      exact Or.inl ⟨rfl, rfl⟩
    · rintro (⟨-, rfl⟩ | ⟨hne, -⟩)
      · rfl
      · exact absurd rfl hne
  · rw [put_of_ne hk]
    constructor
    · exact fun hb => Or.inr ⟨hk, hb⟩
    · rintro (⟨rfl, -⟩ | ⟨-, hb⟩)
      · exact absurd rfl hk
      · exact hb

theorem erase_eq_some : t.erase h k = some b ↔ k ≠ h ∧ t k = some b := by
  by_cases hk : k = h
  · rw [hk, erase_self]
    constructor
    · exact fun hb => nomatch hb
    · exact fun hb => absurd rfl hb.1
  · rw [erase_of_ne hk]
    exact ⟨fun hb => ⟨hk, hb⟩, And.right⟩

/-- An entry that is added at a free index leaves the others where they are. -/
theorem put_of_some (hh : t h = none) (hk : t k = some b) : t.put h a k = some b := by
  refine put_eq_some.mpr (Or.inr ⟨?_, hk⟩)
  rintro rfl
  rw [hh] at hk
  cases hk

theorem holds_put (hh : t h = none) : (t.put h a).Holds b ↔ b = a ∨ t.Holds b := by
  constructor
  · rintro ⟨k, hk⟩
    rcases put_eq_some.mp hk with ⟨-, rfl⟩ | ⟨-, hk⟩
    · exact Or.inl rfl
    · exact Or.inr ⟨k, hk⟩
  · rintro (rfl | ⟨k, hk⟩)
    · exact ⟨h, put_self⟩
    · exact ⟨k, put_of_some hh hk⟩

theorem holds_erase (ht : t.Single) (hh : t h = some a) :
    (t.erase h).Holds b ↔ t.Holds b ∧ b ≠ a := by
  constructor
  · rintro ⟨k, hk⟩
    obtain ⟨hne, hk⟩ := erase_eq_some.mp hk
    refine ⟨⟨k, hk⟩, ?_⟩
    rintro rfl
    exact hne (ht k h b hk hh)
  · rintro ⟨⟨k, hk⟩, hne⟩
    refine ⟨k, erase_eq_some.mpr ⟨?_, hk⟩⟩
    rintro rfl
    rw [hh] at hk
    exact hne (Option.some.inj hk).symm

theorem Single.put (ht : t.Single) (ha : ¬ t.Holds a) : (t.put h a).Single := by
  intro k k' b hk hk'
  rcases put_eq_some.mp hk with ⟨rfl, rfl⟩ | ⟨-, hold⟩ <;>
    rcases put_eq_some.mp hk' with ⟨rfl, hb⟩ | ⟨-, hold'⟩
  · rfl
  · exact absurd ⟨k', hold'⟩ ha
  · rw [hb] at hold
    exact absurd ⟨k, hold⟩ ha
  · exact ht k k' b hold hold'

theorem Single.erase (ht : t.Single) : (t.erase h).Single := fun k k' b hk hk' =>
  ht k k' b (erase_eq_some.mp hk).2 (erase_eq_some.mp hk').2

end

end Handles
