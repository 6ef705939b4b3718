import WitBindgen.Library.Heap

/-!
# Runs that change nothing

A run is read-only when it ends in the world it began in. Whatever is put together
from loads is.
-/

namespace Heap

variable {ε α β : Type}

def ReadOnly (x : Exec ε α) : Prop := ∀ w a w', x w = .ok (a, w') → w' = w

namespace ReadOnly

theorem pure (a : α) : ReadOnly (Pure.pure a : Exec ε α) := by
  intro w b w' h
  cases h
  rfl

theorem stuck : ReadOnly (Heap.stuck : Exec ε α) := nofun

theorem require (o : Option α) : ReadOnly (Heap.require o : Exec ε α) := by
  cases o with
  | none => exact stuck
  | some a => exact pure a

theorem bind {x : Exec ε α} {f : α → Exec ε β} (hx : ReadOnly x) (hf : ∀ a, ReadOnly (f a)) :
    ReadOnly (x >>= f) := by
  intro w b w' h
  obtain ⟨a, w₁, hxa, hfa⟩ := run_bind_eq_ok h
  rw [hf a w₁ b w' hfa, hx w a w₁ hxa]

theorem loadBytes (a k : Nat) : ReadOnly (Heap.loadBytes a k : Exec ε (List UInt8)) := by
  intro w bs w' h
  rw [Heap.loadBytes] at h
  split at h
  · split at h
    · cases h
      rfl
    · cases h
  · cases h

theorem loadNat (a k : Nat) : ReadOnly (Heap.loadNat a k : Exec ε Nat) :=
  (loadBytes a k).bind fun _ => pure _

theorem mapM {f : α → Exec ε β} {xs : List α} (h : ∀ x ∈ xs, ReadOnly (f x)) : ReadOnly (xs.mapM f) := by
  induction xs with
  | nil => exact pure _
  | cons x xs ih =>
    rw [List.mapM_cons]
    exact (h x List.mem_cons_self).bind fun _ =>
      (ih fun y hy => h y (List.mem_cons_of_mem _ hy)).bind fun _ => pure _

end ReadOnly

/-- Where every run of a list is read-only, all of them see the same world. -/
theorem mapM_forall₂ {f : α → Exec ε β} {xs : List α} {ys : List β} {w w' : World ε}
    (hf : ∀ x ∈ xs, ReadOnly (f x)) (h : xs.mapM f w = .ok (ys, w')) :
    List.Forall₂ (fun x y => f x w = .ok (y, w)) xs ys := by
  induction xs generalizing ys with
  | nil =>
    cases h
    exact .nil
  | cons x xs ih =>
    rw [List.mapM_cons] at h
    obtain ⟨y, w₁, hx, hrest⟩ := run_bind_eq_ok h
    obtain rfl := hf x List.mem_cons_self w y w₁ hx
    obtain ⟨ys', w₂, hxs, hlast⟩ := run_bind_eq_ok hrest
    cases hlast
    exact .cons hx (ih (fun x' hx' => hf x' (List.mem_cons_of_mem _ hx')) hxs)

end Heap
