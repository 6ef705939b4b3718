import Mathlib.Logic.Function.Basic
import Mathlib.Tactic.Common

/-!
# Memory in blocks

Each block of memory is addressed from its own start, and a pointer is a place in one of
them. What is written in one block leaves the others alone, and so do the places of a
block that are not written.
-/

namespace Blocks

variable {β : Type}

/-- A place in a block. -/
structure Pointer (β : Type) where
  block : β
  offset : Nat
deriving DecidableEq

def Pointer.add (p : Pointer β) (n : Nat) : Pointer β := ⟨p.block, p.offset + n⟩

@[simp] theorem Pointer.add_zero (p : Pointer β) : p.add 0 = p := rfl

@[simp] theorem Pointer.add_add (p : Pointer β) (a b : Nat) : (p.add a).add b = p.add (a + b) :=
  congrArg (Pointer.mk p.block) (Nat.add_assoc ..)

/-- The bytes of each block. -/
abbrev Memory (β : Type) := β → Nat → UInt8

namespace Memory

variable (m : Memory β)

/-- The `n` bytes from `p` on. -/
def read (p : Pointer β) (n : Nat) : List UInt8 := (List.range n).map fun i => m p.block (p.offset + i)

@[simp] theorem read_zero (p : Pointer β) : m.read p 0 = [] := rfl

variable [DecidableEq β]

/-- The bytes are put in place from `p` on. -/
def write (p : Pointer β) (bs : List UInt8) : Memory β :=
  Function.update m p.block fun i =>
    if p.offset ≤ i then (bs[i - p.offset]?).getD (m p.block i) else m p.block i

/-- `n` pieces, one every `size` bytes. -/
def writeEach (p : Pointer β) (size : Nat) (f : Nat → List UInt8) : Nat → Memory β
  | 0 => m
  | n + 1 => (writeEach p size f n).write (p.add (n * size)) (f n)

variable {m}

theorem read_write (p : Pointer β) (bs : List UInt8) : (m.write p bs).read p bs.length = bs := by
  refine List.ext_getElem (by simp [read]) fun i hi hi' => ?_
  simp [read, write, List.getElem?_eq_getElem hi']

/-- Places of another block, or in front of what is written. -/
theorem read_write_of_apart {p q : Pointer β} {bs : List UInt8} {n : Nat}
    (h : q.block ≠ p.block ∨ q.offset + n ≤ p.offset) : (m.write p bs).read q n = m.read q n := by
  refine List.map_congr_left fun i hi => ?_
  rw [List.mem_range] at hi
  rw [write]
  by_cases hblock : q.block = p.block
  · have hbefore := h.resolve_left fun hne => hne hblock
    rw [hblock, Function.update_self, if_neg (by omega)]
  · rw [Function.update_of_ne hblock]

theorem read_writeEach_of_apart {p q : Pointer β} {size n : Nat} {f : Nat → List UInt8}
    (h : q.block ≠ p.block ∨ q.offset + n ≤ p.offset) (k : Nat) :
    (m.writeEach p size f k).read q n = m.read q n := by
  induction k with
  | zero => rfl
  | succ k ih =>
    have hapart : q.block ≠ (p.add (k * size)).block ∨ q.offset + n ≤ (p.add (k * size)).offset :=
      h.imp_right fun hle => Nat.le_add_right_of_le hle
    rw [writeEach, read_write_of_apart hapart, ih]

/-- Each piece is found where it was put. -/
theorem read_writeEach {p : Pointer β} {size : Nat} {f : Nat → List UInt8} (hf : ∀ i, (f i).length = size)
    {i n : Nat} (hi : i < n) : (m.writeEach p size f n).read (p.add (i * size)) size = f i := by
  induction n with
  | zero => cases hi
  | succ n ih =>
    rw [writeEach]
    rcases Nat.lt_succ_iff_lt_or_eq.mp hi with hlt | rfl
    · rw [read_write_of_apart (.inr ?_), ih hlt]
      have hle : (i + 1) * size ≤ n * size := Nat.mul_le_mul_right size hlt
      rw [Nat.succ_mul] at hle
      show p.offset + i * size + size ≤ p.offset + n * size
      omega
    · have hread := read_write (m := m.writeEach p size f i) (p.add (i * size)) (f i)
      rwa [hf] at hread

end Memory

end Blocks
