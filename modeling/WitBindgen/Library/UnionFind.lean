import Mathlib.Order.WellFounded
import Mathlib.Order.Lattice
import Mathlib.Order.MinMax
import Mathlib.Logic.Function.Basic

/-!
# Union-find with minimal roots

A forest of parent pointers in which no parent is above its child. The order
makes every chain of parents end, so `find` needs no further invariant; it
points what it passes at the root it finds. `union` hangs the larger of two
roots under the smaller one, which makes every root the least member of its
class.
-/

/-- Parent pointers; a root is its own parent. -/
structure UnionFind (ι : Type) [LinearOrder ι] where
  parent : ι → ι
  parent_le : ∀ x, parent x ≤ x

namespace UnionFind

variable {ι : Type} [LinearOrder ι]

/-- Every element alone. -/
def empty : UnionFind ι := ⟨id, fun _ => le_refl _⟩

instance : Inhabited (UnionFind ι) := ⟨empty⟩

def insert (u : UnionFind ι) (x p : ι) (h : p ≤ x) : UnionFind ι where
  parent := Function.update u.parent x p
  parent_le y := by
    by_cases hy : y = x
    · subst hy; simpa using h
    · simpa [hy] using u.parent_le y

/-- Hang the larger of two roots under the smaller one. -/
def link (u : UnionFind ι) (ra rb : ι) : UnionFind ι :=
  if ra = rb then u
  else if h : ra < rb then u.insert rb ra (le_of_lt h)
  else u.insert ra rb (not_lt.mp h)

/-- The root of `x`, and the forest in which everything from `x` up to the root
points at it. -/
def find [WellFoundedLT ι] (u : UnionFind ι) (x : ι) : {r : ι × UnionFind ι // r.1 ≤ x} :=
  if h : u.parent x = x then ⟨(x, u), le_refl _⟩
  else
    have : u.parent x < x := lt_of_le_of_ne (u.parent_le x) h
    let r := find u (u.parent x)
    have hle : r.1.1 ≤ x := le_trans r.2 (u.parent_le x)
    ⟨(r.1.1, r.1.2.insert x r.1.1 hle), hle⟩
termination_by (wellFounded_lt (α := ι)).wrap x

section
variable [WellFoundedLT ι]

def root (u : UnionFind ι) (x : ι) : ι := (u.find x).1.1

def union (u : UnionFind ι) (a b : ι) : UnionFind ι :=
  let ra := u.find a
  let rb := ra.1.2.find b
  rb.1.2.link ra.1.1 rb.1.1

/-! ## Roots -/

variable (u : UnionFind ι) {x y r : ι}

theorem root_le (x : ι) : u.root x ≤ x := (u.find x).2

theorem root_of_parent (h : u.parent x = x) : u.root x = x := by
  rw [root, find, dif_pos h]

theorem root_parent (x : ι) : u.root (u.parent x) = u.root x := by
  by_cases h : u.parent x = x
  · rw [h]
  · conv_rhs => rw [root, find, dif_neg h]
    rfl

/-- A root is its own parent. -/
theorem parent_root (x : ι) : u.parent (u.root x) = u.root x := by
  induction x using WellFoundedLT.induction with
  | ind x ih =>
    by_cases h : u.parent x = x
    · rw [u.root_of_parent h, h]
    · rw [← u.root_parent]
      exact ih _ (lt_of_le_of_ne (u.parent_le x) h)

@[simp] theorem root_root (x : ι) : u.root (u.root x) = u.root x :=
  u.root_of_parent (u.parent_root x)

theorem root_empty (x : ι) : (empty : UnionFind ι).root x = x := root_of_parent _ rfl

/-- Pointing an element at its own root changes no root. -/
theorem root_compress (h : r ≤ x) (hr : u.root x = r) (y : ι) :
    (u.insert x r h).root y = u.root y := by
  subst hr
  induction y using WellFoundedLT.induction with
  | ind y ih =>
    rw [← root_parent]
    by_cases hy : y = x
    · subst hy
      have hparent : (u.insert y (u.root y) h).parent y = u.root y := Function.update_self ..
      rw [hparent]
      rcases lt_or_eq_of_le h with hlt | heq
      · rw [ih _ hlt, root_root]
      · refine root_of_parent _ ?_
        show Function.update u.parent y (u.root y) (u.root y) = u.root y
        rw [Function.update_apply, if_pos heq]
    · have hparent : (u.insert x (u.root x) h).parent y = u.parent y :=
        Function.update_of_ne hy ..
      rw [hparent]
      by_cases hroot : u.parent y = y
      · rw [hroot, root_of_parent _ (hparent.trans hroot), root_of_parent _ hroot]
      · rw [ih _ (lt_of_le_of_ne (u.parent_le y) hroot), root_parent]

/-- Hanging a root under another one moves its whole class. -/
theorem root_insert {a b : ι} (ha : u.parent a = a) (hb : u.parent b = b) (h : b ≤ a) (y : ι) :
    (u.insert a b h).root y = if u.root y = a then b else u.root y := by
  induction y using WellFoundedLT.induction with
  | ind y ih =>
    rw [← root_parent]
    by_cases hy : y = a
    · subst hy
      have hparent : (u.insert y b h).parent y = b := Function.update_self ..
      rw [hparent, if_pos (u.root_of_parent ha)]
      refine root_of_parent _ ?_
      show Function.update u.parent y b b = b
      rw [Function.update_apply]
      split
      · rfl
      · exact hb
    · have hparent : (u.insert a b h).parent y = u.parent y := Function.update_of_ne hy ..
      rw [hparent]
      by_cases hroot : u.parent y = y
      · rw [hroot, root_of_parent _ (hparent.trans hroot), root_of_parent _ hroot, if_neg hy]
      · rw [ih _ (lt_of_le_of_ne (u.parent_le y) hroot), root_parent]

/-! ## What `find` and `union` do to roots -/

@[simp] theorem root_find (x y : ι) : (u.find x).1.2.root y = u.root y := by
  induction x using WellFoundedLT.induction generalizing y with
  | ind x ih =>
    by_cases h : u.parent x = x
    · rw [find, dif_pos h]
    · have hlt := lt_of_le_of_ne (u.parent_le x) h
      rw [find, dif_neg h]
      have hr : (u.find (u.parent x)).1.2.root x = (u.find (u.parent x)).1.1 := by
        rw [ih _ hlt, ← u.root_parent]
        rfl
      have hle : (u.find (u.parent x)).1.1 ≤ x := le_trans (u.find _).2 (u.parent_le x)
      exact (root_compress _ hle hr y).trans (ih _ hlt y)

theorem root_link {a b : ι} (ha : u.parent a = a) (hb : u.parent b = b) (y : ι) :
    (u.link a b).root y = if u.root y = a ∨ u.root y = b then min a b else u.root y := by
  unfold link
  split
  · next h =>
      subst h
      by_cases hy : u.root y = a <;> simp [hy]
  · split
    · next h =>
        rw [root_insert _ hb ha, min_eq_left (le_of_lt h)]
        by_cases hya : u.root y = a <;> simp [hya]
    · next h =>
        rw [root_insert _ ha hb, min_eq_right (not_lt.mp h)]
        by_cases hyb : u.root y = b <;> simp [hyb]

/-- A union joins two classes and leaves the others alone. -/
theorem root_union (a b y : ι) : (u.union a b).root y =
    if u.root y = u.root a ∨ u.root y = u.root b then min (u.root a) (u.root b) else u.root y := by
  have hb : ((u.find a).1.2.find b).1.1 = u.root b := u.root_find a b
  have hroots : ∀ z, ((u.find a).1.2.find b).1.2.root z = u.root z := fun z => by simp
  have hparent : ∀ z, ((u.find a).1.2.find b).1.2.parent (u.root z) = u.root z := fun z => by
    have hp := parent_root ((u.find a).1.2.find b).1.2 z
    rwa [hroots] at hp
  show (((u.find a).1.2.find b).1.2.link (u.root a) ((u.find a).1.2.find b).1.1).root y = _
  rw [hb, root_link _ (hparent a) (hparent b), hroots]

/-- `x` and `y` are in one class. -/
def Same (x y : ι) : Prop := u.root x = u.root y

instance (x y : ι) : Decidable (u.Same x y) := inferInstanceAs (Decidable (_ = _))

theorem same_equivalence : Equivalence u.Same where
  refl _ := rfl
  symm h := h.symm
  trans h h' := h.trans h'

theorem same_root (x : ι) : u.Same (u.root x) x := u.root_root x

/-- The root is the least member of the class. -/
theorem root_le_of_same (h : u.Same x y) : u.root x ≤ y := h ▸ u.root_le y

theorem same_union (a b x y : ι) : (u.union a b).Same x y ↔ u.Same x y ∨
    (u.Same x a ∨ u.Same x b) ∧ (u.Same y a ∨ u.Same y b) := by
  unfold Same
  rw [root_union, root_union]
  by_cases hx : u.root x = u.root a ∨ u.root x = u.root b <;>
    by_cases hy : u.root y = u.root a ∨ u.root y = u.root b
  · simp [hx, hy]
  · simp only [hx, hy, if_true, if_false, and_false, or_false]
    constructor
    · intro h
      rcases min_choice (u.root a) (u.root b) with hm | hm <;> rw [hm] at h <;>
        exact absurd (by simp [h]) hy
    · intro h; exact absurd (h ▸ hx) hy
  · simp only [hx, hy, if_true, if_false, false_and, or_false]
    constructor
    · intro h
      rcases min_choice (u.root a) (u.root b) with hm | hm <;> rw [hm] at h <;>
        exact absurd (by simp [h]) hx
    · intro h; exact absurd (h ▸ hy) hx
  · simp [hx, hy]

end

end UnionFind
