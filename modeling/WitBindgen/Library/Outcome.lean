import Mathlib.Data.List.Forall2
import Mathlib.Tactic.Common

/-!
# What a computation that may fail ends in

`Ends E P x` says that `x` returns a value with `P` or fails with an error in `E`.
The rules follow the `do` notation; two analyses of one program that allow
different errors are combined by `Ends.and`.
-/

variable {ε α β : Type} {E F : ε → Prop} {P Q : α → Prop}

def Ends (E : ε → Prop) (P : α → Prop) : Except ε α → Prop
  | .ok a => P a
  | .error e => E e

@[simp] theorem Ends_ok {a : α} : Ends E P (.ok a) ↔ P a := Iff.rfl
@[simp] theorem Ends_error {e : ε} : Ends E P (.error e : Except ε α) ↔ E e := Iff.rfl
@[simp] theorem Ends_pure {a : α} : Ends E P (pure a : Except ε α) ↔ P a := Iff.rfl

namespace Ends

variable {x : Except ε α}

theorem mono (h : Ends E P x) (hP : ∀ a, P a → Q a) : Ends E Q x := by
  cases x with
  | ok a => exact hP a h
  | error e => exact h

theorem mono_error (h : Ends E P x) (hE : ∀ e, E e → F e) : Ends F P x := by
  cases x with
  | ok a => exact h
  | error e => exact hE e h

theorem bind {f : α → Except ε β} {R : β → Prop} (h : Ends E P x)
    (hf : ∀ a, P a → Ends E R (f a)) : Ends E R (x >>= f) := by
  cases x with
  | ok a => exact hf a h
  | error e => exact h

theorem map {f : α → β} {R : β → Prop} (h : Ends E (fun a => R (f a)) x) :
    Ends E R (f <$> x) := by
  cases x with
  | ok a => exact h
  | error e => exact h

theorem and (h : Ends E P x) (h' : Ends F Q x) :
    Ends (fun e => E e ∧ F e) (fun a => P a ∧ Q a) x := by
  cases x with
  | ok a => exact ⟨h, h'⟩
  | error e => exact ⟨h, h'⟩

theorem of_ok {a : α} (h : Ends E P x) (hx : x = .ok a) : P a := by
  subst hx; exact h

theorem of_error {e : ε} (h : Ends E P x) (hx : x = .error e) : E e := by
  subst hx; exact h

end Ends

/-! ## Lists -/

/-- Each result comes from its own element. -/
theorem mapM_ok_forall₂ {f : α → Except ε β} {xs : List α} {ys : List β} (h : xs.mapM f = .ok ys) :
    List.Forall₂ (fun x y => f x = .ok y) xs ys := by
  induction xs generalizing ys with
  | nil => cases h; exact .nil
  | cons x xs ih =>
    rw [List.mapM_cons] at h
    cases hx : f x with
    | error e => rw [hx] at h; cases h
    | ok y =>
      cases hxs : xs.mapM f with
      | error e => rw [hx, hxs] at h; cases h
      | ok ys' =>
        rw [hx, hxs] at h
        cases h
        exact .cons hx (ih hxs)

theorem exists_of_forall₂_right {R : α → β → Prop} {xs : List α} {ys : List β}
    (h : List.Forall₂ R xs ys) {y : β} (hy : y ∈ ys) : ∃ x ∈ xs, R x y := by
  induction h with
  | nil => cases hy
  | cons hxy _ ih =>
    rcases List.mem_cons.mp hy with rfl | hy
    · exact ⟨_, List.mem_cons_self, hxy⟩
    · obtain ⟨x, hx, hr⟩ := ih hy
      exact ⟨x, List.mem_cons_of_mem _ hx, hr⟩

theorem mapM_ok_mem {f : α → Except ε β} {xs : List α} {ys : List β} (h : xs.mapM f = .ok ys)
    {y : β} (hy : y ∈ ys) : ∃ x ∈ xs, f x = .ok y :=
  exists_of_forall₂_right (mapM_ok_forall₂ h) hy
