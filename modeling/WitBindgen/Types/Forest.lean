import WitBindgen.Library.UnionFind
import WitBindgen.Wit.Ty
import Mathlib.Logic.Relation
import Mathlib.Order.Bounds.Basic

/-!
# The classes of equal types as the generator stores them

`UnionFind` of `types.rs` is a map from an id to its parent, in which a root has no
entry. `find` follows the parents by recursion and points what it passes at the root;
nothing in the code says that the parents ever end. The forest of
`WitBindgen.Library.UnionFind` has that in its type. Every map that `find` and `union`
build from the empty one is such a forest, and they do on it what the library's
operations do.
-/

namespace WitBindgen.Types

open Relation

/-- `parent` of `UnionFind`. -/
structure Parents where
  parent : TypeId → Option TypeId

namespace Parents

/-- `UnionFind::default()`. -/
def empty : Parents := ⟨fun _ => none⟩

def insert (u : Parents) (id root : TypeId) : Parents :=
  ⟨Function.update u.parent id (some root)⟩

/-- `none` where the recursion is deeper than `fuel`. -/
def find : Nat → Parents → TypeId → Option (TypeId × Parents)
  | 0, _, _ => none
  | fuel + 1, u, id =>
    let parent := (u.parent id).getD id
    if parent ≠ id then
      match find fuel u parent with
      | some (root, u) => some (root, u.insert id root)
      | none => none
    else some (id, u)

def union (fuel : Nat) (u : Parents) (a b : TypeId) : Option Parents :=
  match find fuel u a with
  | none => none
  | some (ra, u) =>
    match find fuel u b with
    | none => none
    | some (rb, u) =>
      if ra ≠ rb then
        -- the smaller id is the root
        if ra < rb then some (u.insert rb ra) else some (u.insert ra rb)
      else some u

/-- More fuel changes nothing. -/
theorem find_mono {m n : Nat} {u : Parents} {x : TypeId} {p : TypeId × Parents} (hle : m ≤ n)
    (h : find m u x = some p) : find n u x = some p := by
  induction m generalizing n x p with
  | zero => cases h
  | succ m ih =>
    obtain ⟨n, rfl⟩ : ∃ k, n = k + 1 := ⟨n - 1, by omega⟩
    unfold find at h ⊢
    dsimp only at h ⊢
    split at h
    · next hne =>
        rw [if_pos hne]
        cases hf : find m u ((u.parent x).getD x) with
        | none =>
          rw [hf] at h
          cases h
        | some q =>
          rw [hf] at h
          rw [ih (by omega) hf]
          exact h
    · next hroot => rwa [if_neg hroot]

/-! ## Calls that return -/

def Finds (u : Parents) (id root : TypeId) (u' : Parents) : Prop :=
  ∃ fuel, ∀ n, fuel ≤ n → find n u id = some (root, u')

def Unions (u : Parents) (a b : TypeId) (u' : Parents) : Prop :=
  ∃ fuel, ∀ n, fuel ≤ n → union n u a b = some u'

/-- `find` answers the same for both. -/
def SameClass (u : Parents) (x y : TypeId) : Prop :=
  ∃ r u₁ u₂, u.Finds x r u₁ ∧ u.Finds y r u₂

theorem Finds.det {u u₁ u₂ : Parents} {x r s : TypeId} (h : u.Finds x r u₁)
    (h' : u.Finds x s u₂) : r = s ∧ u₁ = u₂ := by
  obtain ⟨m, hm⟩ := h
  obtain ⟨n, hn⟩ := h'
  have heq := (hm (max m n) (le_max_left m n)).symm.trans (hn (max m n) (le_max_right m n))
  injection heq with heq
  injection heq with hr hu
  exact ⟨hr, hu⟩

end Parents

/-- A call of `find` or `union`. -/
inductive ForestCall where
  | find (id : TypeId)
  | union (a b : TypeId)
deriving DecidableEq

/-- `roots` are what the calls of `find` return. -/
inductive Parents.Calls : List ForestCall → Parents → List TypeId → Parents → Prop
  | nil {u : Parents} : Calls [] u [] u
  | find {u u₁ u₂ : Parents} {id root : TypeId} {cs : List ForestCall} {roots : List TypeId}
      (h : u.Finds id root u₁) (hrest : Calls cs u₁ roots u₂) :
      Calls (.find id :: cs) u (root :: roots) u₂
  | union {u u₁ u₂ : Parents} {a b : TypeId} {cs : List ForestCall} {roots : List TypeId}
      (h : u.Unions a b u₁) (hrest : Calls cs u₁ roots u₂) :
      Calls (.union a b :: cs) u roots u₂

/-- Joined by the unions among the calls. -/
def Joined (cs : List ForestCall) : TypeId → TypeId → Prop :=
  EqvGen fun a b => ForestCall.union a b ∈ cs

/-! ## The map is a forest -/

/-- The map stores the parents of the forest, and only those that are smaller. -/
structure Parents.Stores (u : Parents) (f : UnionFind TypeId) : Prop where
  parent : ∀ x, f.parent x = (u.parent x).getD x
  below : ∀ x p, u.parent x = some p → p < x

namespace Parents.Stores

variable {u u' : Parents} {f : UnionFind TypeId} {x y a b r : TypeId}

theorem empty : Parents.empty.Stores UnionFind.empty where
  parent _ := rfl
  below _ _ h := nomatch h

theorem insert (h : u.Stores f) (hlt : r < x) : (u.insert x r).Stores (f.insert x r hlt.le) where
  parent y := by
    show Function.update f.parent x r y = (Function.update u.parent x (some r) y).getD y
    by_cases hy : y = x
    · subst hy
      rw [Function.update_self, Function.update_self]
      rfl
    · rw [Function.update_of_ne hy, Function.update_of_ne hy]
      exact h.parent y
  below y p hp := by
    have hp : Function.update u.parent x (some r) y = some p := hp
    by_cases hy : y = x
    · subst hy
      rw [Function.update_self] at hp
      injection hp with hp
      exact hp ▸ hlt
    · rw [Function.update_of_ne hy] at hp
      exact h.below y p hp

/-- The recursion of `find` descends, so that `x` bounds its depth. -/
theorem find (h : u.Stores f) (x fuel : Nat) (hfuel : x < fuel) :
    ∃ u', Parents.find fuel u x = some (f.root x, u') ∧ u'.Stores (f.find x).1.2 := by
  induction fuel generalizing x with
  | zero => exact absurd hfuel (Nat.not_lt_zero x)
  | succ fuel ih =>
    have hparent := h.parent x
    unfold Parents.find
    by_cases hroot : f.parent x = x
    · refine ⟨u, ?_, ?_⟩
      · rw [← hparent, if_neg (not_not.mpr hroot), f.root_of_parent hroot]
      · rw [UnionFind.find, dif_pos hroot]
        exact h
    · have hlt : f.parent x < x := lt_of_le_of_ne (f.parent_le x) hroot
      obtain ⟨u', hfind, hstores⟩ := ih (f.parent x) (lt_of_lt_of_le hlt (Nat.le_of_lt_succ hfuel))
      refine ⟨u'.insert x (f.root x), ?_, ?_⟩
      · rw [← hparent, if_pos hroot, hfind, f.root_parent]
      · have hle : f.root x < x := by
          rw [← f.root_parent]
          exact lt_of_le_of_lt (f.root_le _) hlt
        have hr : f.root x = (f.find (f.parent x)).1.1 := (f.root_parent x).symm
        rw [UnionFind.find, dif_neg hroot]
        simp only [hr] at hle ⊢
        exact hstores.insert hle

theorem finds (h : u.Stores f) (x : TypeId) :
    ∃ u', u.Finds x (f.root x) u' ∧ u'.Stores (f.find x).1.2 := by
  obtain ⟨u', hfind, hstores⟩ := h.find x (x + 1) (Nat.lt_succ_self x)
  exact ⟨u', ⟨x + 1, fun n hn => find_mono hn hfind⟩, hstores⟩

theorem unions (h : u.Stores f) (a b : TypeId) :
    ∃ u', u.Unions a b u' ∧ u'.Stores (f.union a b) := by
  obtain ⟨u₁, ⟨m, hm⟩, h₁⟩ := h.finds a
  obtain ⟨u₂, ⟨n, hn⟩, h₂⟩ := h₁.finds b
  have hrb : ((f.find a).1.2.find b).1.1 = (f.find a).1.2.root b := rfl
  have hunion : f.union a b = ((f.find a).1.2.find b).1.2.link (f.root a) ((f.find a).1.2.root b) :=
    rfl
  rw [hunion]
  generalize (f.find a).1.2.root b = rb at hn
  generalize f.root a = ra at hm
  have hreturns : ∀ u₃, (if ra ≠ rb then
      if ra < rb then some (u₂.insert rb ra) else some (u₂.insert ra rb) else some u₂) = some u₃ →
      u.Unions a b u₃ := by
    intro u₃ hu
    refine ⟨max m n, fun k hk => ?_⟩
    unfold Parents.union
    rw [hm k (le_trans (le_max_left m n) hk)]
    simp only
    rw [hn k (le_trans (le_max_right m n) hk)]
    exact hu
  rcases lt_trichotomy ra rb with hlt | heq | hgt
  · refine ⟨u₂.insert rb ra, hreturns _ ?_, ?_⟩
    · rw [if_pos (ne_of_lt hlt), if_pos hlt]
    · unfold UnionFind.link
      rw [if_neg (ne_of_lt hlt), dif_pos hlt]
      exact h₂.insert hlt
  · refine ⟨u₂, hreturns _ ?_, ?_⟩
    · rw [if_neg (not_not.mpr heq)]
    · unfold UnionFind.link
      rw [if_pos heq]
      exact h₂
  · refine ⟨u₂.insert ra rb, hreturns _ ?_, ?_⟩
    · rw [if_pos (ne_of_gt hgt), if_neg (lt_asymm hgt)]
    · unfold UnionFind.link
      rw [if_neg (ne_of_gt hgt), dif_neg (lt_asymm hgt)]
      exact h₂.insert hgt

theorem sameClass_iff (h : u.Stores f) : u.SameClass x y ↔ f.Same x y := by
  obtain ⟨u₁, hx, -⟩ := h.finds x
  obtain ⟨u₂, hy, -⟩ := h.finds y
  constructor
  · rintro ⟨r, v₁, v₂, hx', hy'⟩
    exact (hx.det hx').1.trans (hy.det hy').1.symm
  · intro hsame
    have hsame : f.root x = f.root y := hsame
    rw [← hsame] at hy
    exact ⟨f.root x, u₁, u₂, hx, hy⟩

end Parents.Stores

/-! ## Runs from the empty map -/

/-- The stored forest's classes are those that the unions made. -/
structure Parents.Reached (cs : List ForestCall) (u : Parents) (f : UnionFind TypeId) : Prop where
  stores : u.Stores f
  same : ∀ x y, f.Same x y ↔ Joined cs x y

namespace Parents.Reached

variable {cs ds : List ForestCall} {u : Parents} {f : UnionFind TypeId}

theorem empty : Reached [] Parents.empty UnionFind.empty where
  stores := .empty
  same x y := by
    constructor
    · intro h
      have h : UnionFind.empty.root x = UnionFind.empty.root y := h
      rw [UnionFind.root_empty, UnionFind.root_empty] at h
      exact h ▸ EqvGen.refl x
    · intro h
      refine UnionFind.empty.same_equivalence.eqvGen_iff.mp (EqvGen.mono ?_ x y h)
      exact fun a b hmem => nomatch hmem

theorem find (h : Reached cs u f) (id : TypeId) :
    ∃ u', u.Finds id (f.root id) u' ∧ Reached (cs ++ [.find id]) u' (f.find id).1.2 := by
  obtain ⟨u', hfinds, hstores⟩ := h.stores.finds id
  refine ⟨u', hfinds, hstores, fun x y => ?_⟩
  have hjoined : Joined (cs ++ [.find id]) x y ↔ Joined cs x y := by
    unfold Joined
    simp
  rw [hjoined, ← h.same, UnionFind.Same, UnionFind.root_find, UnionFind.root_find]
  rfl

theorem union (h : Reached cs u f) (a b : TypeId) :
    ∃ u', u.Unions a b u' ∧ Reached (cs ++ [.union a b]) u' (f.union a b) := by
  obtain ⟨u', hunions, hstores⟩ := h.stores.unions a b
  refine ⟨u', hunions, hstores, fun x y => ?_⟩
  have hold : ∀ {x y}, f.Same x y → Joined (cs ++ [.union a b]) x y := fun hxy =>
    EqvGen.mono (fun _ _ hmem => List.mem_append_left _ hmem) _ _ ((h.same _ _).mp hxy)
  have hab : Joined (cs ++ [.union a b]) a b :=
    .rel a b (List.mem_append_right _ (List.mem_singleton_self _))
  constructor
  · intro hxy
    rcases (f.same_union a b x y).mp hxy with hxy | ⟨hx, hy⟩
    · exact hold hxy
    · have hxa : Joined (cs ++ [.union a b]) x a := by
        rcases hx with hx | hx
        · exact hold hx
        · exact .trans _ _ _ (hold hx) (.symm _ _ hab)
      have hya : Joined (cs ++ [.union a b]) y a := by
        rcases hy with hy | hy
        · exact hold hy
        · exact .trans _ _ _ (hold hy) (.symm _ _ hab)
      exact .trans _ _ _ hxa (.symm _ _ hya)
  · intro hxy
    refine (f.union a b).same_equivalence.eqvGen_iff.mp (EqvGen.mono (fun c d hmem => ?_) x y hxy)
    rw [f.same_union]
    rcases List.mem_append.mp hmem with hmem | hmem
    · exact Or.inl ((h.same c d).mpr (.rel c d hmem))
    · rw [List.mem_singleton] at hmem
      injection hmem with hc hd
      subst hc hd
      exact Or.inr ⟨Or.inl rfl, Or.inr rfl⟩

/-- Every call of the run returns; `done` are the calls before it. -/
theorem calls (h : Reached ds u f) (cs : List ForestCall) :
    ∃ roots u' f', Calls cs u roots u' ∧ Reached (ds ++ cs) u' f' := by
  induction cs generalizing ds u f with
  | nil => exact ⟨[], u, f, .nil, by rwa [List.append_nil]⟩
  | cons c cs ih =>
    cases c with
    | find id =>
      obtain ⟨u₁, hfinds, h₁⟩ := h.find id
      obtain ⟨roots, u', f', hcalls, hreached⟩ := ih h₁
      refine ⟨_, u', f', .find hfinds hcalls, ?_⟩
      rwa [List.append_assoc] at hreached
    | union a b =>
      obtain ⟨u₁, hunions, h₁⟩ := h.union a b
      obtain ⟨roots, u', f', hcalls, hreached⟩ := ih h₁
      refine ⟨_, u', f', .union hunions hcalls, ?_⟩
      rwa [List.append_assoc] at hreached

end Parents.Reached

/-- After any calls from the empty map: parents are smaller than their children, no chain
of parents comes back, the classes are those that the unions made, `find` returns the least
id of a class and leaves the classes as they are, and `union` merges two of them. -/
theorem parents_forest (cs : List ForestCall) : ∃ roots u, Parents.Calls cs .empty roots u ∧
    (∀ x p, u.parent x = some p → p ≤ x) ∧
    (∀ x, ¬ TransGen (fun x p => u.parent x = some p) x x) ∧
    (∀ x y, u.SameClass x y ↔ Joined cs x y) ∧
    (∀ x, ∃ r u', u.Finds x r u' ∧ IsLeast {y | u.SameClass x y} r ∧
      ∀ y z, u'.SameClass y z ↔ u.SameClass y z) ∧
    ∀ a b, ∃ u', u.Unions a b u' ∧ ∀ x y, u'.SameClass x y ↔ u.SameClass x y ∨
      u.SameClass x a ∧ u.SameClass b y ∨ u.SameClass x b ∧ u.SameClass a y := by
  obtain ⟨roots, u, f, hcalls, hreached⟩ := Parents.Reached.empty.calls cs
  have hstores := hreached.stores
  refine ⟨roots, u, hcalls, fun x p hp => (hstores.below x p hp).le, ?_, ?_, ?_, ?_⟩
  · intro x hcycle
    have hdescends : ∀ y, TransGen (fun x p => u.parent x = some p) x y → y < x := by
      intro y hy
      induction hy with
      | single h => exact hstores.below _ _ h
      | tail _ h ih => exact lt_trans (hstores.below _ _ h) ih
    exact lt_irrefl x (hdescends x hcycle)
  · intro x y
    rw [hstores.sameClass_iff]
    exact hreached.same x y
  · intro x
    obtain ⟨u', hfinds, hstores'⟩ := hstores.finds x
    refine ⟨f.root x, u', hfinds, ⟨?_, fun y hy => ?_⟩, fun y z => ?_⟩
    · exact hstores.sameClass_iff.mpr (f.same_equivalence.symm (f.same_root x))
    · exact f.root_le_of_same (hstores.sameClass_iff.mp hy)
    · rw [hstores'.sameClass_iff, hstores.sameClass_iff, UnionFind.Same, UnionFind.root_find,
        UnionFind.root_find]
      rfl
  · intro a b
    obtain ⟨u', hunions, hstores'⟩ := hstores.unions a b
    refine ⟨u', hunions, fun x y => ?_⟩
    have heq := f.same_equivalence
    rw [hstores'.sameClass_iff, f.same_union]
    simp only [hstores.sameClass_iff]
    constructor
    · rintro (h | ⟨hx | hx, hy | hy⟩)
      · exact Or.inl h
      · exact Or.inl (heq.trans hx (heq.symm hy))
      · exact Or.inr (Or.inl ⟨hx, heq.symm hy⟩)
      · exact Or.inr (Or.inr ⟨hx, heq.symm hy⟩)
      · exact Or.inl (heq.trans hx (heq.symm hy))
    · rintro (h | ⟨hx, hy⟩ | ⟨hx, hy⟩)
      · exact Or.inl h
      · exact Or.inr ⟨Or.inl hx, Or.inr (heq.symm hy)⟩
      · exact Or.inr ⟨Or.inr hx, Or.inl (heq.symm hy)⟩

end WitBindgen.Types
