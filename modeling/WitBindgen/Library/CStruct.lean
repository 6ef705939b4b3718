import Mathlib.Data.List.Basic
import Mathlib.Tactic.Common

/-!
# How C lays out structs and unions

Sizes, alignments and member offsets of C object types, for a target whose
pointers take `p` bytes and whose scalars are aligned to their own size: each
member of a struct goes to the next offset its alignment allows, the members of
a union share offset zero, and either is padded to a multiple of its alignment.
A struct without members takes no space, as compilers for C have it.
-/

namespace CStruct

/-- The least multiple of `a` that is at least `n`. -/
def roundUp (n a : Nat) : Nat := n + (a - n % a) % a

theorem le_roundUp (n a : Nat) : n ≤ roundUp n a := Nat.le_add_right ..

theorem dvd_roundUp (n a : Nat) (ha : 0 < a) : a ∣ roundUp n a := by
  unfold roundUp
  have hlt := Nat.mod_lt n ha
  have hdiv := Nat.div_add_mod n a
  by_cases hzero : n % a = 0
  · rw [hzero, Nat.sub_zero, Nat.mod_self, Nat.add_zero]
    exact Nat.dvd_of_mod_eq_zero hzero
  · rw [Nat.mod_eq_of_lt (by omega)]
    refine ⟨n / a + 1, ?_⟩
    rw [Nat.mul_add, Nat.mul_one]
    omega

theorem roundUp_le {n m a : Nat} (ha : 0 < a) (hm : a ∣ m) (h : n ≤ m) : roundUp n a ≤ m := by
  unfold roundUp
  obtain ⟨q, rfl⟩ := hm
  have hlt := Nat.mod_lt n ha
  have hdiv := Nat.div_add_mod n a
  by_cases hzero : n % a = 0
  · rw [hzero, Nat.sub_zero, Nat.mod_self]
    exact h
  · rw [Nat.mod_eq_of_lt (by omega)]
    have hq : n / a < q := Nat.div_lt_of_lt_mul (by
      refine Nat.lt_of_le_of_ne h fun heq => hzero ?_
      rw [heq, Nat.mul_mod_right])
    have := Nat.mul_le_mul_left a (Nat.succ_le_of_lt hq)
    rw [Nat.mul_succ] at this
    omega

/-- Rounding up is the least upper bound among the multiples. -/
theorem roundUp_eq {n m a : Nat} (ha : 0 < a) (hm : a ∣ m) (h : n ≤ m) (hlt : m < n + a) :
    roundUp n a = m := by
  refine Nat.le_antisymm (roundUp_le ha hm h) ?_
  obtain ⟨q, hq⟩ := dvd_roundUp n a ha
  obtain ⟨r, rfl⟩ := hm
  have hle := le_roundUp n a
  rw [hq] at hle ⊢
  refine Nat.mul_le_mul_left a (Nat.le_of_not_lt fun hqr => ?_)
  have := Nat.mul_le_mul_left a (Nat.succ_le_of_lt hqr)
  rw [Nat.mul_succ] at this
  omega

/-- Padding in the middle does not change the padded end. -/
theorem roundUp_mono_eq {n m a : Nat} (ha : 0 < a) (h : n ≤ m) (hm : m ≤ roundUp n a) :
    roundUp m a = roundUp n a := by
  have hpad : roundUp n a < n + a := by
    unfold roundUp
    exact Nat.add_lt_add_left (Nat.mod_lt _ ha) n
  exact roundUp_eq ha (dvd_roundUp n a ha) hm (by omega)

theorem roundUp_add {o n a : Nat} (ha : 0 < a) (ho : a ∣ o) :
    roundUp (o + n) a = o + roundUp n a := by
  have hpad : roundUp n a < n + a := by
    unfold roundUp
    exact Nat.add_lt_add_left (Nat.mod_lt _ ha) n
  refine roundUp_eq ha (Nat.dvd_add ho (dvd_roundUp n a ha)) ?_ ?_
  · exact Nat.add_le_add_left (le_roundUp n a) o
  · omega

/-- A union padded inside a struct pads the struct no further. -/
theorem roundUp_roundUp {o n a b : Nat} (ha : 0 < a) (hb : 0 < b) (hab : a ∣ b) (ho : a ∣ o) :
    roundUp (o + roundUp n a) b = roundUp (o + n) b := by
  refine roundUp_mono_eq hb (Nat.add_le_add_left (le_roundUp n a) o) ?_
  rw [← roundUp_add ha ho]
  exact roundUp_le ha (Nat.dvd_trans hab (dvd_roundUp _ b hb)) (le_roundUp _ b)

/-! ## Object types -/

/-- A C object type. Scalars have their size; what a pointer points to may be
incomplete. -/
inductive Decl where
  | scalar (bytes : Nat)
  | pointer (target : Option Decl)
  | struct (members : List (String × Decl))
  | union (members : List (String × Decl))

theorem Decl.sizeOf_struct {members : List (String × Decl)} {m : String × Decl}
    (h : m ∈ members) : sizeOf m.2 < sizeOf (Decl.struct members) := by
  have h1 := List.sizeOf_lt_of_mem h
  obtain ⟨n, d⟩ := m
  simp only [Prod.mk.sizeOf_spec, Decl.struct.sizeOf_spec] at *
  omega

theorem Decl.sizeOf_union {members : List (String × Decl)} {m : String × Decl}
    (h : m ∈ members) : sizeOf m.2 < sizeOf (Decl.union members) := by
  have h1 := List.sizeOf_lt_of_mem h
  obtain ⟨n, d⟩ := m
  simp only [Prod.mk.sizeOf_spec, Decl.union.sizeOf_spec] at *
  omega

/-- Size and alignment. -/
structure Extent where
  size : Nat
  align : Nat
deriving DecidableEq

/-- The offsets of members that follow one another from `cur`. -/
def offsets (cur : Nat) : List Extent → List Nat
  | [] => []
  | m :: ms => roundUp cur m.align :: offsets (roundUp cur m.align + m.size) ms

/-- Where the last of them ends. -/
def finish (cur : Nat) (members : List Extent) : Nat :=
  members.foldl (fun cur m => roundUp cur m.align + m.size) cur

def maxAlign (members : List Extent) : Nat := members.foldl (fun cur m => max cur m.align) 1

def maxSize (members : List Extent) : Nat := members.foldl (fun cur m => max cur m.size) 0

def structOf (members : List Extent) : Extent :=
  ⟨roundUp (finish 0 members) (maxAlign members), maxAlign members⟩

def unionOf (members : List Extent) : Extent :=
  ⟨roundUp (maxSize members) (maxAlign members), maxAlign members⟩

def Decl.extent (p : Nat) : Decl → Extent
  | .scalar bytes => ⟨bytes, bytes⟩
  | .pointer _ => ⟨p, p⟩
  | .struct members => structOf (members.map fun m => m.2.extent p)
  | .union members => unionOf (members.map fun m => m.2.extent p)
termination_by d => sizeOf d
decreasing_by
  · exact Decl.sizeOf_struct ‹_›
  · exact Decl.sizeOf_union ‹_›

/-- The offsets of the members of a struct. -/
def Decl.memberOffsets (p : Nat) : Decl → List Nat
  | .struct members => offsets 0 (members.map fun m => m.2.extent p)
  | _ => []

@[simp] theorem Decl.extent_scalar (p bytes : Nat) :
    (Decl.scalar bytes).extent p = ⟨bytes, bytes⟩ := by rw [extent]

@[simp] theorem Decl.extent_pointer (p : Nat) (target : Option Decl) :
    (Decl.pointer target).extent p = ⟨p, p⟩ := by rw [extent]

theorem Decl.extent_struct (p : Nat) (members : List (String × Decl)) :
    (Decl.struct members).extent p = structOf (members.map fun m => m.2.extent p) := by
  rw [extent]

theorem Decl.extent_union (p : Nat) (members : List (String × Decl)) :
    (Decl.union members).extent p = unionOf (members.map fun m => m.2.extent p) := by
  rw [extent]

end CStruct
