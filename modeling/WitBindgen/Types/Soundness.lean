import WitBindgen.Types.Classes
import Mathlib.Data.List.Forall2

/-!
# What the classes mean

With every type aliasable, the classes are exactly structural equality. With a
predicate that excludes some types, two excluded types never share a class, but
containers of two of them do: the recursion of the comparison looks at shapes
only. The classes are sound exactly when no two types that join a class differ
in a component that stays out of its own.
-/

namespace WitBindgen

/-! ## All types aliasable -/

/-- The partition is structural equality of the live types, and the
representative of a class is its least member. -/
theorem equal_types_structural (r : Resolve) (live : List TypeId) (hnodup : live.Nodup) :
    ∃ u, collectEqualTypes r live (fun _ => true) UnionFind.empty = some ((), u) ∧
      Equivalence u.Same ∧
      (∀ a ∈ live, ∀ b ∈ live, u.Same a b ↔ r.shape (.id a) = r.shape (.id b)) ∧
      ∀ a ∈ live, ∃ m ∈ live, u.Same m a ∧ ∀ b, u.Same b a →
        m ≤ b ∧ (getRepresentativeType b u).map (·.1) = some m := by
  obtain ⟨u, hrun, hscan⟩ := collectEqualTypes_run r (fun _ => true) live hnodup
  have hsame : ∀ a ∈ live, ∀ b ∈ live, u.Same a b ↔ r.shape (.id a) = r.shape (.id b) := by
    intro a ha b hb
    rw [hscan a b]
    constructor
    · rintro (rfl | h)
      · rfl
      · exact h.2.2.1
    · exact fun h => Or.inr ⟨ha, hb, h, Or.inl rfl, Or.inl rfl⟩
  refine ⟨u, hrun, u.same_equivalence, hsame, fun a ha => ⟨u.root a, ?_, u.same_root a, ?_⟩⟩
  · rcases (hscan (u.root a) a).mp (u.same_root a) with h | h
    · rw [h]; exact ha
    · exact h.1
  · intro b hb
    exact ⟨u.root_le_of_same hb.symm, congrArg some hb⟩

/-- Two lists, of a record and of an alias of it. -/
def aliasResolve : Resolve where
  types
    | 0 => .record [("a", .prim .u32)]
    | 1 => .type (.id 0)
    | 2 => .list (.id 0)
    | 3 => .list (.id 1)
    | _ => .resource
  rank i := i
  rank_lt i j h := by
    match i, h with
    | 0, h => simp [TypeDefKind.components] at h
    | 1, h | 2, h | 3, h =>
      obtain rfl := by simpa [TypeDefKind.components] using h
      decide
    | _ + 4, h => cases h
  known i := by
    match i with
    | 0 | 1 | 2 | 3 => simp
    | _ + 4 => simp

theorem equal_types_structural_lists :
    ∃ u, collectEqualTypes aliasResolve [0, 1, 2, 3] (fun _ => true) UnionFind.empty =
        some ((), u) ∧
      Equivalence u.Same ∧
      (∀ a ∈ [0, 1, 2, 3], ∀ b ∈ [0, 1, 2, 3],
        u.Same a b ↔ aliasResolve.shape (.id a) = aliasResolve.shape (.id b)) ∧
      ∀ a ∈ [0, 1, 2, 3], ∃ m ∈ [0, 1, 2, 3], u.Same m a ∧ ∀ b, u.Same b a →
        m ≤ b ∧ (getRepresentativeType b u).map (·.1) = some m :=
  equal_types_structural aliasResolve [0, 1, 2, 3] (by decide)

/-! ## Definitions up to classes -/

/-- Live types: with a type the types its definition refers to are live. -/
structure LiveTypes (r : Resolve) where
  ids : List TypeId
  nodup : ids.Nodup
  closed : ∀ i ∈ ids, ∀ j, .id j ∈ (r.types i).components → j ∈ ids

namespace Resolve

variable (r : Resolve)

def peelTo : Nat → TypeRef → TypeRef
  | n + 1, .id i =>
    match r.types i with
    | .type t => peelTo n t
    | _ => .id i
  | _, t => t

/-- The type behind plain aliases. -/
def peel (t : TypeRef) : TypeRef := r.peelTo (r.weight t) t

theorem peelTo_spec {n : Nat} {t : TypeRef} (h : r.weight t ≤ n) :
    r.shape (r.peelTo n t) = r.shape t ∧
      ∀ i, r.peelTo n t = .id i → ∀ s, r.types i ≠ .type s := by
  induction n generalizing t with
  | zero =>
    cases t with
    | id i => cases h
    | _ => exact ⟨rfl, fun i hi => by cases hi⟩
  | succ n ih =>
    cases t with
    | id i =>
      cases hk : r.types i with
      | type t =>
        have hlt := r.weight_lt_of hk (List.mem_cons_self : t ∈ (TypeDefKind.type t).components)
        have hpeel : r.peelTo (n + 1) (.id i) = r.peelTo n t := by simp only [peelTo, hk]
        rw [hpeel, r.shape_type hk]
        exact ih (by omega)
      | _ =>
        have hpeel : r.peelTo (n + 1) (.id i) = .id i := by simp only [peelTo, hk]
        rw [hpeel]
        refine ⟨rfl, fun j hj s hs => ?_⟩
        obtain rfl := TypeRef.id.inj hj
        rw [hk] at hs
        cases hs
    | _ => exact ⟨rfl, fun i hi => by cases hi⟩

theorem shape_peel (t : TypeRef) : r.shape (r.peel t) = r.shape t :=
  (r.peelTo_spec (Nat.le_refl _)).1

theorem peel_definition {t : TypeRef} {i : TypeId} (h : r.peel t = .id i) (s : TypeRef) :
    r.types i ≠ .type s := (r.peelTo_spec (Nat.le_refl _)).2 i h s

theorem peelTo_live {r : Resolve} (live : LiveTypes r) {n : Nat} {i j : TypeId}
    (hi : i ∈ live.ids) (h : r.peelTo n (.id i) = .id j) : j ∈ live.ids := by
  induction n generalizing i with
  | zero => obtain rfl := TypeRef.id.inj h; exact hi
  | succ n ih =>
    cases hk : r.types i with
    | type t =>
      have hpeel : r.peelTo (n + 1) (.id i) = r.peelTo n t := by simp only [peelTo, hk]
      rw [hpeel] at h
      cases t with
      | id k => exact ih (live.closed i hi k (by rw [hk]; exact List.mem_cons_self)) h
      | _ => cases n <;> cases h
    | _ =>
      have hpeel : r.peelTo (n + 1) (.id i) = .id i := by simp only [peelTo, hk]
      rw [hpeel] at h
      obtain rfl := TypeRef.id.inj h
      exact hi

/-- Two types without typedefs in front, of one shape, are the same scalar or
have definitions of one shape. -/
theorem shape_peel_eq {t s : TypeRef} (h : r.shape t = r.shape s) :
    (∃ i j, r.peel t = .id i ∧ r.peel s = .id j ∧ r.shape (.id i) = r.shape (.id j)) ∨
      (r.peel t = r.peel s ∧ ∀ i, r.peel t ≠ .id i) := by
  rw [← r.shape_peel t, ← r.shape_peel s] at h
  cases ht : r.peel t with
  | id i =>
    have hne := r.shape_ne_of_ne (r.peel_definition ht)
    rw [ht] at h
    cases hs : r.peel s with
    | id j =>
      rw [hs] at h
      exact Or.inl ⟨i, j, rfl, rfl, h⟩
    | prim p => rw [hs] at h; exact absurd h (hne.1 p)
    | string => rw [hs] at h; exact absurd h hne.2.1
    | errorContext => rw [hs] at h; exact absurd h hne.2.2
  | _ =>
    rw [ht] at h
    cases hs : r.peel s with
    | id j =>
      have hne := r.shape_ne_of_ne (r.peel_definition hs)
      rw [hs] at h
      first
        | exact absurd h.symm (hne.1 _)
        | exact absurd h.symm hne.2.1
        | exact absurd h.symm hne.2.2
    | _ =>
      rw [hs] at h
      refine Or.inr ⟨?_, fun i hi => by cases hi⟩
      first
        | rfl
        | (simp only [shape, weight, shapeTo, Shape.prim.injEq, reduceCtorEq] at h; try rw [h])

end Resolve

/-- The definitions agree in everything but the types they refer to. -/
def SameHead (k k' : TypeDefKind) : Prop :=
  k.shape 0 (fun _ => .unknown) = k'.shape 0 fun _ => .unknown

theorem forall₂_of_map_eq {α β γ : Type} {f : α → γ} {g : β → γ} {xs : List α} {ys : List β}
    (h : xs.map f = ys.map g) : List.Forall₂ (fun x y => f x = g y) xs ys := by
  have heq : List.Forall₂ Eq (xs.map f) (ys.map g) := by rw [h, List.forall₂_eq_eq_eq]
  exact List.forall₂_map_left_iff.mp (List.forall₂_map_right_iff.mp heq)

theorem map_eq_of_forall₂ {α β γ : Type} {f : α → γ} {g : β → γ} {xs : List α} {ys : List β}
    (h : List.Forall₂ (fun x y => f x = g y) xs ys) : xs.map f = ys.map g := by
  have heq := List.forall₂_map_left_iff.mpr (List.forall₂_map_right_iff.mpr h)
  rwa [List.forall₂_eq_eq_eq] at heq

/-- Optional components. -/
theorem forall₂_toList {α γ : Type} {f : α → γ} {o o' : Option α} (h : o.map f = o'.map f) :
    List.Forall₂ (fun x y => f x = f y) o.toList o'.toList := by
  cases o <;> cases o' <;> simp_all

/-- Definitions of one shape agree in their heads, and their components in shape. -/
theorem shape_definitions {k k' : TypeDefKind} {i j : TypeId} {f : TypeRef → Shape}
    (h : k.shape i f = k'.shape j f) (hk : ∀ t, k ≠ .type t) (hk' : ∀ t, k' ≠ .type t) :
    SameHead k k' ∧ List.Forall₂ (fun t s => f t = f s) k.components k'.components := by
  unfold SameHead
  cases k with
  | type t => exact absurd rfl (hk t)
  | record fields =>
    cases k' with
    | type t => exact absurd rfl (hk' t)
    | record fields' =>
      have hfields := forall₂_of_map_eq (Shape.record.inj h)
      refine ⟨congrArg Shape.record (map_eq_of_forall₂ (hfields.imp fun x y hxy => ?_)), ?_⟩
      · rw [(Prod.ext_iff.mp hxy).1]
      · refine List.forall₂_map_left_iff.mpr (List.forall₂_map_right_iff.mpr ?_)
        exact hfields.imp fun x y hxy => (Prod.ext_iff.mp hxy).2
    | _ => cases h
  | variant cases =>
    cases k' with
    | type t => exact absurd rfl (hk' t)
    | variant cases' =>
      have hcases := forall₂_of_map_eq (Shape.variant.inj h)
      refine ⟨congrArg Shape.variant (map_eq_of_forall₂ (hcases.imp fun x y hxy => ?_)), ?_⟩
      · obtain ⟨hname, hpayload⟩ := Prod.ext_iff.mp hxy
        have hsome := congrArg Option.isSome hpayload
        rw [Prod.ext_iff]
        refine ⟨hname, ?_⟩
        cases hx : x.2 <;> cases hy : y.2 <;> simp_all
      · have hlist : ∀ x y : String × Option TypeRef,
            (x.1, x.2.map f) = (y.1, y.2.map f) →
            List.Forall₂ (fun t s => f t = f s) x.2.toList y.2.toList := fun x y hxy =>
          forall₂_toList (Prod.ext_iff.mp hxy).2
        clear h hk hk'
        show List.Forall₂ _ (cases.flatMap fun c => c.2.toList)
          (cases'.flatMap fun c => c.2.toList)
        induction hcases with
        | nil => exact .nil
        | cons hxy _ ih =>
          rw [List.flatMap_cons, List.flatMap_cons]
          exact List.rel_append (hlist _ _ hxy) ih
    | _ => cases h
  | tuple types =>
    cases k' with
    | type t => exact absurd rfl (hk' t)
    | tuple types' =>
      have htypes := forall₂_of_map_eq (Shape.tuple.inj h)
      exact ⟨congrArg Shape.tuple (map_eq_of_forall₂ (htypes.imp fun _ _ _ => rfl)), htypes⟩
    | _ => cases h
  | resource | flags fs | enum cs | unknown =>
    cases k' with
    | type t => exact absurd rfl (hk' t)
    | _ => first | (cases h; done) | (cases h; exact ⟨rfl, .nil⟩)
  | handle hd =>
    cases k' with
    | type t => exact absurd rfl (hk' t)
    | handle hd' =>
      obtain ⟨hown, hresource⟩ := Shape.handle.inj h
      exact ⟨by simp only [TypeDefKind.shape, hown], .cons hresource .nil⟩
    | _ => cases h
  | option t | list t =>
    cases k' with
    | type t => exact absurd rfl (hk' t)
    | option t' | list t' => first | cases h | (injection h with h; exact ⟨rfl, .cons h .nil⟩)
    | _ => cases h
  | fixedLengthList t n =>
    cases k' with
    | type t => exact absurd rfl (hk' t)
    | fixedLengthList t' n' =>
      obtain ⟨ht, hn⟩ := Shape.fixedLengthList.inj h
      exact ⟨by simp only [TypeDefKind.shape, hn], .cons ht .nil⟩
    | _ => cases h
  | map key v =>
    cases k' with
    | type t => exact absurd rfl (hk' t)
    | map key' v' =>
      obtain ⟨hkey, hv⟩ := Shape.map.inj h
      exact ⟨rfl, .cons hkey (.cons hv .nil)⟩
    | _ => cases h
  | result ok err =>
    cases k' with
    | type t => exact absurd rfl (hk' t)
    | result ok' err' =>
      obtain ⟨hok, herr⟩ := Shape.result.inj h
      refine ⟨?_, List.rel_append (forall₂_toList hok) (forall₂_toList herr)⟩
      cases ok <;> cases ok' <;> cases err <;> cases err' <;> simp_all [TypeDefKind.shape]
    | _ => cases h
  | future o =>
    cases k' with
    | type t => exact absurd rfl (hk' t)
    | future o' =>
      have ho := Shape.future.inj h
      refine ⟨?_, forall₂_toList ho⟩
      cases o <;> cases o' <;> simp_all [TypeDefKind.shape]
    | _ => cases h
  | stream o =>
    cases k' with
    | type t => exact absurd rfl (hk' t)
    | stream o' =>
      have ho := Shape.stream.inj h
      refine ⟨?_, forall₂_toList ho⟩
      cases o <;> cases o' <;> simp_all [TypeDefKind.shape]
    | _ => cases h

/-! ## Types that may not be aliased -/

/-- Two components are the same scalar or, behind aliases, in one class. -/
def SameClass (r : Resolve) (u : UnionFind TypeId) (t s : TypeRef) : Prop :=
  match r.peel t, r.peel s with
  | .id i, .id j => u.Same i j
  | t', s' => t' = s'

/-- The definitions behind aliases are identical once every component is
replaced by its class. -/
def SameDefinition (r : Resolve) (u : UnionFind TypeId) (x y : TypeId) : Prop :=
  match r.peel (.id x), r.peel (.id y) with
  | .id i, .id j => SameHead (r.types i) (r.types j) ∧
      List.Forall₂ (SameClass r u) (r.types i).components (r.types j).components
  | t, s => t = s

/-- The types the components `t` and `s` stand for behind aliases are `P`-related. -/
def RelatedIds (r : Resolve) (P : TypeId → TypeId → Prop) (t s : TypeRef) : Prop :=
  ∀ i j, r.peel t = .id i → r.peel s = .id j → P i j

/-- Components of the definitions of `x` and `y` behind aliases are pairwise
`P`-related. -/
def RelatedComponents (r : Resolve) (P : TypeId → TypeId → Prop) (x y : TypeId) : Prop :=
  ∀ i j, r.peel (.id x) = .id i → r.peel (.id y) = .id j →
    ∀ z ∈ (r.types i).components.zip (r.types j).components, RelatedIds r P z.1 z.2

/-- Equal types are interchangeable for a backend in which types that may not
be aliased are equal to nothing else. -/
structure AliasSound (r : Resolve) (live : LiveTypes r) (mayAlias : TypeId → Bool)
    (u : UnionFind TypeId) : Prop where
  apart : ∀ x ∈ live.ids, ∀ y ∈ live.ids, mayAlias x = false → mayAlias y = false →
    u.Same x y → r.peel (.id x) = r.peel (.id y)
  definitions : ∀ x ∈ live.ids, ∀ y ∈ live.ids, u.Same x y → SameDefinition r u x y
  containers : ∀ x ∈ live.ids, ∀ y ∈ live.ids, u.Same x y →
    RelatedComponents r (fun i j => mayAlias i = false → mayAlias j = false → i = j) x y

/-- Types of one shape that join a class have components that are the same or
join a class themselves. -/
def ComponentsJoin (r : Resolve) (live : LiveTypes r) (mayAlias : TypeId → Bool) : Prop :=
  ∀ x ∈ live.ids, ∀ y ∈ live.ids, x ≠ y → r.shape (.id x) = r.shape (.id y) →
    Joins r mayAlias live.ids x → Joins r mayAlias live.ids y →
    RelatedComponents r
      (fun i j => i = j ∨ Joins r mayAlias live.ids i ∧ Joins r mayAlias live.ids j) x y

variable {r : Resolve} {live : LiveTypes r} {mayAlias : TypeId → Bool} {u : UnionFind TypeId}

/-- Two first types of one shape are one type. -/
theorem firstOfShape_unique {ids : List TypeId} {x y : TypeId} (hx : x ∈ ids) (hy : y ∈ ids)
    (hfx : FirstOfShape r ids x) (hfy : FirstOfShape r ids y)
    (h : r.shape (.id x) = r.shape (.id y)) : x = y := by
  by_contra hne
  have hcases : x ∈ ids.takeWhile (· ≠ y) ∨ y ∈ ids.takeWhile (· ≠ x) := by
    clear hfx hfy
    induction ids with
    | nil => cases hx
    | cons z ids ih =>
      by_cases hzx : z = x
      · left; simp [hzx, hne]
      by_cases hzy : z = y
      · right; simp [hzy, Ne.symm hne]
      · have hx' : x ∈ ids := by simpa [Ne.symm hzx] using hx
        have hy' : y ∈ ids := by simpa [Ne.symm hzy] using hy
        simp only [List.takeWhile_cons, ne_eq, hzx, hzy, not_false_eq_true, decide_true, if_true]
        exact (ih hx' hy').imp (List.mem_cons_of_mem _) (List.mem_cons_of_mem _)
  rcases hcases with hmem | hmem
  · exact hfy x hmem h
  · exact hfx y hmem h.symm

/-- Types that may not be aliased never share a class. -/
theorem ScannedTo.apart (h : ScannedTo r mayAlias live.ids u) {x y : TypeId}
    (hx : mayAlias x = false) (hy : mayAlias y = false) (hxy : u.Same x y) : x = y := by
  rcases (h x y).mp hxy with rfl | ⟨hxl, hyl, hshape, hjx, hjy⟩
  · rfl
  · refine firstOfShape_unique hxl hyl ?_ ?_ hshape
    · exact hjx.resolve_left (by simp [hx])
    · exact hjy.resolve_left (by simp [hy])

theorem component_live (hx : x ∈ live.ids) {i j : TypeId} {t : TypeRef}
    (hi : r.peel (.id x) = .id i) (ht : t ∈ (r.types i).components) (hj : r.peel t = .id j) :
    j ∈ live.ids := by
  have hil : i ∈ live.ids := Resolve.peelTo_live live hx hi
  cases t with
  | id k => exact Resolve.peelTo_live live (live.closed i hil k ht) hj
  | _ => cases hj

/-- Types of one shape have definitions that are identical up to classes when
their components lie in one class pairwise. -/
theorem sameDefinition_of_related {x y : TypeId} (h : r.shape (.id x) = r.shape (.id y))
    (hrel : RelatedComponents r u.Same x y) : SameDefinition r u x y := by
  unfold SameDefinition
  rcases r.shape_peel_eq h with ⟨i, j, hi, hj, hij⟩ | ⟨heq, hne⟩
  · rw [hi, hj]
    rw [Resolve.shape_id, Resolve.shape_id] at hij
    obtain ⟨hhead, hcomps⟩ := shape_definitions hij (r.peel_definition hi) (r.peel_definition hj)
    refine ⟨hhead, ?_⟩
    rw [List.forall₂_iff_zip] at hcomps ⊢
    refine ⟨hcomps.1, fun {t s} hz => ?_⟩
    unfold SameClass
    rcases r.shape_peel_eq (hcomps.2 hz) with ⟨a, b, ha, hb, -⟩ | ⟨heq, hne⟩
    · rw [ha, hb]
      exact hrel i j hi hj (t, s) hz a b ha hb
    · rw [← heq]
      cases ht : r.peel t with
      | id a => exact absurd ht (hne a)
      | _ => rfl
  · rw [← heq]
    cases hx : r.peel (.id x) with
    | id i => exact absurd hx (hne i)
    | _ => rfl

theorem eq_of_mem_zip {α : Type} {l : List α} {z : α × α} (h : z ∈ l.zip l) : z.1 = z.2 := by
  induction l with
  | nil => cases h
  | cons a l ih =>
    rcases List.mem_cons.mp h with rfl | h
    · rfl
    · exact ih h

theorem SameDefinition.related {x y : TypeId} (h : SameDefinition r u x y) :
    RelatedComponents r u.Same x y := by
  intro i j hi hj z hz a b ha hb
  unfold SameDefinition at h
  rw [hi, hj] at h
  have hclass : SameClass r u z.1 z.2 := (List.forall₂_iff_zip.mp h.2).2 hz
  unfold SameClass at hclass
  rwa [ha, hb] at hclass

/-- The classes are sound for a backend exactly when components join wherever
their containers do. -/
theorem ScannedTo.sound_iff (hscan : ScannedTo r mayAlias live.ids u) :
    AliasSound r live mayAlias u ↔ ComponentsJoin r live mayAlias := by
  refine ⟨fun hsound x hx y hy hne hshape hjx hjy => ?_, fun hjoin => ?_⟩
  · have hsame : u.Same x y := (hscan x y).mpr (Or.inr ⟨hx, hy, hshape, hjx, hjy⟩)
    intro i j hi hj z hz a b ha hb
    have hab := (hsound.definitions x hx y hy hsame).related i j hi hj z hz a b ha hb
    exact ((hscan a b).mp hab).imp id fun h => h.2.2.2
  · have hrelated : ∀ x ∈ live.ids, ∀ y ∈ live.ids, u.Same x y →
        RelatedComponents r u.Same x y := by
      intro x hx y hy hsame i j hi hj z hz a b ha hb
      by_cases hxy : x = y
      · subst hxy
        obtain rfl := TypeRef.id.inj (hi.symm.trans hj)
        rw [eq_of_mem_zip hz] at ha
        rw [TypeRef.id.inj (ha.symm.trans hb)]
        rfl
      · rcases (hscan x y).mp hsame with h | ⟨-, -, hshape, hjx, hjy⟩
        · exact absurd h hxy
        rcases hjoin x hx y hy hxy hshape hjx hjy i j hi hj z hz a b ha hb with rfl | ⟨hja, hjb⟩
        · rfl
        · have hal := component_live hx hi (List.of_mem_zip hz).1 ha
          have hbl := component_live hy hj (List.of_mem_zip hz).2 hb
          refine (hscan a b).mpr (Or.inr ⟨hal, hbl, ?_, hja, hjb⟩)
          have hij : r.shape (.id i) = r.shape (.id j) := by
            rw [← hi, ← hj, r.shape_peel, r.shape_peel]
            exact hshape
          rw [Resolve.shape_id, Resolve.shape_id] at hij
          have hcomps := (shape_definitions hij (r.peel_definition hi) (r.peel_definition hj)).2
          have hz' : r.shape z.1 = r.shape z.2 := (List.forall₂_iff_zip.mp hcomps).2 hz
          rwa [← ha, ← hb, r.shape_peel, r.shape_peel]
    have hshape : ∀ x y, u.Same x y → r.shape (.id x) = r.shape (.id y) := hscan.sound
    exact {
      apart := fun x _ y _ hax hay hsame => by rw [hscan.apart hax hay hsame]
      definitions := fun x hx y hy hsame =>
        sameDefinition_of_related (hshape x y hsame) (hrelated x hx y hy hsame)
      containers := fun x hx y hy hsame i j hi hj z hz a b ha hb haa hab =>
        hscan.apart haa hab (hrelated x hx y hy hsame i j hi hj z hz a b ha hb) }

theorem equal_types_sound_iff (r : Resolve) (live : LiveTypes r) (mayAlias : TypeId → Bool) :
    ∃ u, collectEqualTypes r live.ids mayAlias UnionFind.empty = some ((), u) ∧
      (AliasSound r live mayAlias u ↔ ComponentsJoin r live mayAlias) := by
  obtain ⟨u, hrun, hscan⟩ := collectEqualTypes_run r mayAlias live.ids live.nodup
  exact ⟨u, hrun, hscan.sound_iff⟩

/-- Lists of two records that have the same fields but may not be aliased. -/
def twinResolve : Resolve where
  types
    | 0 | 1 => .record [("a", .prim .u32)]
    | 2 => .list (.id 0)
    | 3 => .list (.id 1)
    | _ => .resource
  rank i := i
  rank_lt i j h := by
    match i, h with
    | 0, h | 1, h => simp [TypeDefKind.components] at h
    | 2, h | 3, h =>
      obtain rfl := by simpa [TypeDefKind.components] using h
      decide
    | _ + 4, h => cases h
  known i := by
    match i with
    | 0 | 1 | 2 | 3 => simp
    | _ + 4 => simp

def twinLive : LiveTypes twinResolve where
  ids := [0, 1, 2, 3]
  nodup := by decide
  closed i hi j hj := by
    rcases (by simpa using hi : i = 0 ∨ i = 1 ∨ i = 2 ∨ i = 3) with rfl | rfl | rfl | rfl
    · simp [twinResolve, TypeDefKind.components] at hj
    · simp [twinResolve, TypeDefKind.components] at hj
    · obtain rfl := by simpa [twinResolve, TypeDefKind.components] using hj
      decide
    · obtain rfl := by simpa [twinResolve, TypeDefKind.components] using hj
      decide

/-- The two lists end in one class, their elements do not. -/
theorem equal_types_unsound_twins :
    ∃ u, collectEqualTypes twinResolve twinLive.ids (fun i => decide (2 ≤ i)) UnionFind.empty =
        some ((), u) ∧
      u.Same 2 3 ∧ ¬ u.Same 0 1 ∧ ¬ AliasSound twinResolve twinLive (fun i => decide (2 ≤ i)) u := by
  obtain ⟨u, hrun, hscan⟩ := collectEqualTypes_run twinResolve (fun i => decide (2 ≤ i))
    twinLive.ids twinLive.nodup
  have hlists : u.Same 2 3 :=
    (hscan 2 3).mpr (Or.inr ⟨by decide, by decide, rfl, Or.inl rfl, Or.inl rfl⟩)
  have hrecords : ¬ u.Same 0 1 := fun h => absurd (hscan.apart rfl rfl h) (by decide)
  refine ⟨u, hrun, hlists, hrecords, fun hsound => hrecords ?_⟩
  exact (hsound.definitions 2 (by decide) 3 (by decide) hlists).related 2 3 rfl rfl (.id 0, .id 1)
    (List.mem_cons_self ..) 0 1 rfl rfl

end WitBindgen
