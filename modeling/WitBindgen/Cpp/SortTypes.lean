import WitBindgen.Cpp.ExportedHandles
import WitBindgen.Library.DepthFirst
import Mathlib.Order.Lattice.Nat
import Mathlib.Data.Finset.Range

/-!
# The order of C++ types

`sort_types`: the types of an interface in the order their C++ definitions are printed. The
header has no forward declarations, so a definition has to come behind those of all types it
names; the class of a resource also names the types of its functions. The visitor finishes a
type after the types it names, and marks the resources it has entered, for only these can be
on a cycle.
-/

namespace WitBindgen.Cpp

/-- What `sort_types` reads of a function. -/
structure Function where
  /-- `FunctionKind::resource`. -/
  resource : Option TypeId
  params : List TypeRef
  result : Option TypeRef

def Function.types (f : Function) : List TypeRef := f.params ++ f.result.toList

/-- The default methods of `TypeIdVisitor` go through the types a definition refers to. -/
structure TypeIdVisitor where
  children : TypeDefKind → List TypeId
  mem_children : ∀ k i, i ∈ children k ↔ .id i ∈ k.components

/-- The ids among types. -/
def typeIds (types : List TypeRef) : List TypeId :=
  types.filterMap fun
    | .id i => some i
    | _ => none

theorem mem_typeIds {types : List TypeRef} {i : TypeId} : i ∈ typeIds types ↔ .id i ∈ types := by
  rw [typeIds, List.mem_filterMap]
  constructor
  · rintro ⟨t, ht, hi⟩
    split at hi
    · exact Option.some.inj hi ▸ ht
    · cases hi
  · exact fun h => ⟨_, h, rfl⟩

/-- The interfaces of a `Resolve`. -/
structure Interfaces (r : Resolve) where
  /-- `TypeOwner::Interface`. -/
  owner : TypeId → Option InterfaceId
  types : InterfaceId → List (String × TypeId)
  functions : InterfaceId → List Function

namespace Interfaces

variable {r : Resolve} (I : Interfaces r) (V : TypeIdVisitor)

/-! ## The visitor -/

/-- `seen` is `visited` and `done` is `sorted`. -/
abbrev Visitor := WalkState TypeId

def beforeVisitTypeId (visit : TypeId → Visitor → Option Visitor) (id : TypeId) (v : Visitor) :
    Option (Bool × Visitor) :=
  match r.types id with
  | .resource =>
    if id ∈ v.seen then some (false, v)
    else
      let v := { v with seen := id :: v.seen }
      match I.owner id with
      | some interface =>
        let functions := (I.functions interface).filter fun f => f.resource = some id
        (Walk.visitAll visit (typeIds (functions.flatMap Function.types)) v).map fun v => (true, v)
      | none => some (true, v)
  | _ => some (true, v)

/-- `n` bounds the depth of the recursion. -/
def visitTypeId : Nat → TypeId → Visitor → Option Visitor
  | 0, _, _ => none
  | n + 1, id, v =>
    match I.beforeVisitTypeId (visitTypeId n) id v with
    | some (true, v) => (Walk.visitAll (visitTypeId n) (V.children (r.types id)) v).map (Walk.finish id)
    | some (false, v) => some v
    | none => none

def sortTypes (n : Nat) (interface : InterfaceId) : Option (List (String × TypeId)) :=
  (Walk.visitAll (I.visitTypeId V n) ((I.types interface).map (·.2)) ⟨[], []⟩).map fun v =>
    v.done.filterMap fun id => (I.types interface).find? fun t => t.2 = id

/-! ## The walk -/

/-- The types that the definition of a type names: for a resource those of its functions. -/
def named (id : TypeId) : List TypeId :=
  match r.types id with
  | .resource =>
    match I.owner id with
    | some interface =>
      typeIds (((I.functions interface).filter fun f => f.resource = some id).flatMap Function.types)
    | none => []
  | kind => V.children kind

def walk : Walk TypeId where
  succ := I.named V
  marked id := r.types id = .resource

theorem children_resource : V.children .resource = [] :=
  List.eq_nil_iff_forall_not_mem.mpr fun i hi => nomatch (V.mem_children .resource i).mp hi

/-- The visitor walks depth first. -/
theorem visitTypeId_eq (n : Nat) : I.visitTypeId V n = (I.walk V).visit n := by
  induction n with
  | zero => rfl
  | succ n ih =>
    funext id v
    rw [visitTypeId, Walk.visit, beforeVisitTypeId, ih]
    cases hkind : r.types id with
    | resource =>
      have hmarked : (I.walk V).marked id = true := by simp [walk, hkind]
      dsimp only
      rw [if_pos hmarked]
      by_cases hseen : id ∈ v.seen
      · rw [if_pos hseen, if_pos hseen]
      · rw [if_neg hseen, if_neg hseen]
        cases howner : I.owner id with
        | none =>
          have hnamed : (I.walk V).succ id = [] := by simp [walk, named, hkind, howner]
          rw [hnamed, children_resource]
        | some interface =>
          have hnamed : (I.walk V).succ id =
              typeIds (((I.functions interface).filter fun f => f.resource = some id).flatMap Function.types) := by
            simp [walk, named, hkind, howner]
          rw [hnamed, children_resource]
          dsimp only
          cases hall : Walk.visitAll ((I.walk V).visit n) (typeIds _) { v with seen := id :: v.seen } <;> rfl
    | _ =>
      have hplain : ¬(I.walk V).marked id = true := by simp [walk, hkind]
      have hnamed : (I.walk V).succ id = V.children (r.types id) := by simp [walk, named, hkind]
      rw [if_neg hplain, hnamed, hkind]

theorem sortTypes_mono {n m : Nat} (hnm : n ≤ m) {interface : InterfaceId} {sorted : List (String × TypeId)}
    (h : I.sortTypes V n interface = some sorted) : I.sortTypes V m interface = some sorted := by
  rw [sortTypes, visitTypeId_eq] at h ⊢
  obtain ⟨v, hv, rfl⟩ := Option.map_eq_some_iff.mp h
  rw [Walk.visitAll_mono (fun _ _ _ hvisit => Walk.visit_mono hnm hvisit) hv]
  rfl

/-! ## What a definition needs -/

/-- The definition of `i` names `j`. -/
def Refers (i j : TypeId) : Prop :=
  .id j ∈ (r.types i).components ∨ r.types i = .resource ∧
    ∃ interface, I.owner i = some interface ∧
      ∃ f ∈ I.functions interface, f.resource = some i ∧ .id j ∈ f.types

/-- The definition of `i` needs that of `j` before it. -/
def Needs (i j : TypeId) : Prop := Relation.TransGen I.Refers i j

theorem mem_named {i j : TypeId} : j ∈ I.named V i ↔ I.Refers i j := by
  rw [named, Refers]
  cases hkind : r.types i with
  | resource =>
    cases howner : I.owner i with
    | none => simp [TypeDefKind.components]
    | some interface =>
      dsimp only
      rw [mem_typeIds, List.mem_flatMap]
      simp only [List.mem_filter, decide_eq_true_eq, TypeDefKind.components, List.not_mem_nil, false_or,
        true_and, Option.some.injEq, exists_eq_left']
      exact exists_congr fun f => and_assoc
  | _ => simp only [V.mem_children, reduceCtorEq, false_and, or_false]

theorem needs_walk {i j : TypeId} : (I.walk V).Needs i j ↔ I.Needs i j := by
  have hedge : (fun x y => y ∈ (I.walk V).succ x) = I.Refers :=
    funext fun x => funext fun y => propext (I.mem_named V)
  rw [Walk.Needs, Needs, hedge]

/-- What parsing guarantees: the arena is finite, and the interfaces do not depend on each other
in a cycle. `order` numbers them along their dependencies; `level` is the highest number of an
interface that a type refers to, itself included. -/
structure Parsed where
  size : Nat
  refers_lt : ∀ i < size, ∀ j, I.Refers i j → j < size
  types_lt : ∀ interface, ∀ t ∈ I.types interface, t.2 < size
  distinct : ∀ interface, ((I.types interface).map (·.2)).Nodup
  order : InterfaceId → Nat
  order_injective : ∀ a b, order a = order b → a = b
  level : TypeId → Nat
  level_le : ∀ i j, I.Refers i j → level j ≤ level i
  level_owner : ∀ i interface, I.owner i = some interface → level i = order interface
  owner_types : ∀ interface, ∀ t ∈ I.types interface, I.owner t.2 = some interface
  resources : ∀ i interface, r.types i = .resource → I.owner i = some interface → ∃ name, (name, i) ∈ I.types interface

namespace Parsed

variable {I} (P : I.Parsed)

theorem level_le_of_needs {i j : TypeId} (h : I.Needs i j) : P.level j ≤ P.level i := by
  induction h with
  | single h => exact P.level_le _ _ h
  | tail _ h ih => exact (P.level_le _ _ h).trans ih

include P in
/-- A resource on a cycle with a type is a resource of the same interface. -/
theorem cycle_inside {interface : InterfaceId} {t : String × TypeId} (ht : t ∈ I.types interface) {g : TypeId}
    (hg : r.types g = .resource) (htg : I.Needs t.2 g) (hgt : I.Needs g t.2) :
    ∃ name, (name, g) ∈ I.types interface := by
  obtain ⟨j, hj, -⟩ := Relation.TransGen.head'_iff.mp hgt
  rcases hj with hcomponent | ⟨-, other, howner, -⟩
  · rw [hg] at hcomponent
    exact absurd hcomponent List.not_mem_nil
  · have hlevel : P.level g = P.level t.2 := Nat.le_antisymm (P.level_le_of_needs htg) (P.level_le_of_needs hgt)
    rw [P.level_owner g other howner, P.level_owner _ _ (P.owner_types interface t ht)] at hlevel
    obtain rfl := P.order_injective _ _ hlevel
    exact P.resources g other hg howner

/-- Only resources are on a cycle, and there are finitely many of them. -/
def bounded : (I.walk V).Bounded where
  inside i := i < P.size
  succ_inside i hi j hj := P.refers_lt i hi j ((I.mem_named V).mp hj)
  marks := List.range P.size
  mem_marks i hi _ := List.mem_range.mpr hi
  rank := r.rank
  rank_lt i _ hplain j hj := by
    rcases (I.mem_named V).mp hj with hcomponent | ⟨hresource, -⟩
    · exact r.rank_lt i j hcomponent
    · simp [walk, hresource] at hplain
  height := (Finset.range P.size).sup r.rank
  rank_le i hi := Finset.le_sup (Finset.mem_range.mpr hi)

end Parsed

/-! ## The order of the types of an interface -/

/-- Every type comes behind the other types that its definition needs. -/
def Ordered (interface : InterfaceId) (sorted : List (String × TypeId)) : Prop :=
  ∀ before t after, sorted = before ++ t :: after →
    ∀ u ∈ I.types interface, u ≠ t → I.Needs t.2 u.2 → u ∈ before

/-- The entry of `names` for an id. -/
def entry (interface : InterfaceId) (id : TypeId) : Option (String × TypeId) :=
  (I.types interface).find? fun t => t.2 = id

variable {I}

theorem entry_some {interface : InterfaceId} {id : TypeId} {t : String × TypeId}
    (h : I.entry interface id = some t) : t ∈ I.types interface ∧ t.2 = id :=
  ⟨List.mem_of_find?_eq_some h, by simpa using List.find?_some h⟩

theorem entry_of_mem {interface : InterfaceId} (hdistinct : ((I.types interface).map (·.2)).Nodup)
    {t : String × TypeId} (ht : t ∈ I.types interface) : I.entry interface t.2 = some t := by
  obtain ⟨u, hu⟩ : ∃ u, I.entry interface t.2 = some u :=
    Option.isSome_iff_exists.mp (List.find?_isSome.mpr ⟨t, ht, by simp⟩)
  obtain ⟨hmem, hid⟩ := entry_some hu
  rw [hu, List.inj_on_of_nodup_map hdistinct hmem ht hid]

/-- What the visitor has sorted, with the types of other interfaces and anonymous types left out. -/
theorem entries_perm {interface : InterfaceId} (hdistinct : ((I.types interface).map (·.2)).Nodup)
    {done : List TypeId} (hdone : done.Nodup) (hroots : (I.types interface).map (·.2) ⊆ done) :
    (done.filterMap (I.entry interface)).Perm (I.types interface) := by
  refine (List.perm_ext_iff_of_nodup ?_ (List.Nodup.of_map _ hdistinct)).mpr fun t => ?_
  · exact hdone.filterMap fun i j t hi hj => (entry_some hi).2.symm.trans (entry_some hj).2
  · rw [List.mem_filterMap]
    constructor
    · rintro ⟨i, -, hi⟩
      exact (entry_some hi).1
    · exact fun ht => ⟨t.2, hroots (List.mem_map_of_mem ht), entry_of_mem hdistinct ht⟩

/-- Where the entries are split, so is what was sorted. -/
theorem split_entries {interface : InterfaceId} {done : List TypeId} {before after : List (String × TypeId)}
    {t : String × TypeId} (h : done.filterMap (I.entry interface) = before ++ t :: after) :
    ∃ l r, done = l ++ t.2 :: r ∧ ∀ u ∈ I.types interface, u.2 ∈ l → I.entry interface u.2 = some u → u ∈ before := by
  obtain ⟨l, m, rfl, hl, hm⟩ := List.filterMap_eq_append_iff.mp h
  obtain ⟨m₁, i, m₂, rfl, hnone, hi, -⟩ := List.filterMap_eq_cons_iff.mp hm
  refine ⟨l ++ m₁, m₂, by rw [(entry_some hi).2, List.append_assoc], fun u hu hmem hentry => ?_⟩
  rcases List.mem_append.mp hmem with hmem | hmem
  · rw [← hl]
    exact List.mem_filterMap.mpr ⟨u.2, hmem, hentry⟩
  · rw [hnone u.2 hmem] at hentry
    exact nomatch hentry

/-- `sort_types` ends, and returns the types of the interface once each. Every one comes behind
the others its definition needs exactly if no two of them need each other. -/
theorem sort_types_ordered_iff (P : I.Parsed) (V : TypeIdVisitor) (interface : InterfaceId) :
    ∃ n sorted, (∀ m, n ≤ m → I.sortTypes V m interface = some sorted) ∧ sorted.Perm (I.types interface) ∧
      (I.Ordered interface sorted ↔
        ∀ t ∈ I.types interface, ∀ u ∈ I.types interface, u ≠ t → ¬(I.Needs t.2 u.2 ∧ I.Needs u.2 t.2)) := by
  have hroots : ∀ i ∈ (I.types interface).map (·.2), i < P.size := by
    intro i hi
    obtain ⟨t, ht, rfl⟩ := List.mem_map.mp hi
    exact P.types_lt interface t ht
  obtain ⟨v, hv⟩ := Walk.Bounded.walk_total (B := P.bounded (V := V)) (Nat.le_refl _) hroots
  obtain ⟨hnodup, hroots, hordered⟩ := Walk.walk_ordered hv
  have hperm := entries_perm (P.distinct interface) hnodup hroots
  refine ⟨(P.bounded (V := V)).fuel, v.done.filterMap (I.entry interface), fun m hm => ?_, hperm, ?_, ?_⟩
  · refine I.sortTypes_mono V hm ?_
    rw [sortTypes, visitTypeId_eq, hv]
    rfl
  · intro hsorted t ht u hu hne hmutual
    obtain ⟨before, after, hsplit⟩ := List.append_of_mem (hperm.mem_iff.mpr ht)
    obtain ⟨b₁, b₂, rfl⟩ := List.append_of_mem (hsorted before t after hsplit u hu hne hmutual.1)
    have hback : t ∈ b₁ := hsorted b₁ u (b₂ ++ t :: after) (by simpa using hsplit) t ht hne.symm hmutual.2
    have honce := (hperm.nodup_iff.mpr (List.Nodup.of_map _ (P.distinct interface)))
    rw [hsplit, List.append_assoc, List.nodup_append] at honce
    exact honce.2.2 t hback t (by simp) rfl
  · intro hacyclic before t after hsplit u hu hne hneeds
    have ht : t ∈ I.types interface := hperm.mem_iff.mp (by rw [hsplit]; simp)
    obtain ⟨l, rest, hdone, hbefore⟩ := split_entries hsplit
    rcases hordered l t.2 rest hdone u.2 ((I.needs_walk V).mpr hneeds) with hmem | hid | ⟨g, hgt, hmarked, htg, hgt'⟩
    · exact hbefore u hu hmem (entry_of_mem (P.distinct interface) hu)
    · exact absurd (List.inj_on_of_nodup_map (P.distinct interface) hu ht hid) hne
    · have hg : r.types g = .resource := by simpa [walk] using hmarked
      have htg' := (I.needs_walk V).mp htg
      have hgt'' := (I.needs_walk V).mp hgt'
      obtain ⟨name, hname⟩ := P.cycle_inside ht hg htg' hgt''
      exact absurd ⟨htg', hgt''⟩ (hacyclic t ht (name, g) hname fun h => hgt (congrArg Prod.snd h))

/-! ### A record that holds the resource whose function takes it -/

/-- `resource res { m: func(x: r); }` and `record r { h: res }`. -/
def holding : Resolve where
  types
    | 0 => .resource
    | 1 => .handle (.own 0)
    | 2 => .record [("h", .id 1)]
    | _ => .enum []
  rank id := id
  rank_lt i j h := by
    split at h <;> simp_all [TypeDefKind.components, Handle.resource]
  known i := by
    split <;> exact nofun

def holder : Interfaces holding where
  owner _ := some 0
  types
    | 0 => [("r", 2), ("res", 0)]
    | _ => []
  functions
    | 0 => [⟨some 0, [.id 2], none⟩]
    | _ => []

def parsedHolder : holder.Parsed where
  size := 3
  refers_lt i hi j h := by
    rcases h with h | ⟨-, interface, howner, f, hf, -, hj⟩
    · match i with
      | 0 => exact nomatch h
      | 1 =>
        simp only [holding, TypeDefKind.components, Handle.resource, List.mem_singleton, TypeRef.id.injEq] at h
        exact h ▸ by decide
      | 2 =>
        simp only [holding, TypeDefKind.components, List.map_cons, List.map_nil, List.mem_singleton,
          TypeRef.id.injEq] at h
        exact h ▸ by decide
    · obtain rfl : 0 = interface := Option.some.inj howner
      obtain rfl := List.mem_singleton.mp hf
      have hj : j = 2 := by simpa [Function.types] using hj
      exact hj ▸ by decide
  types_lt interface t ht := by
    match interface with
    | 0 =>
      simp only [holder, List.mem_cons, List.not_mem_nil, or_false] at ht
      rcases ht with rfl | rfl <;> decide
    | _ + 1 => exact nomatch ht
  distinct interface := by
    match interface with
    | 0 => decide
    | _ + 1 => exact List.nodup_nil
  order interface := interface
  order_injective _ _ h := h
  level _ := 0
  level_le _ _ _ := Nat.le_refl 0
  level_owner _ _ h := Option.some.inj h
  owner_types interface t ht := by
    match interface with
    | 0 => rfl
    | _ + 1 => exact nomatch ht
  resources i interface hi howner := by
    obtain rfl : 0 = interface := Option.some.inj howner
    match i with
    | 0 => exact ⟨"res", by decide⟩
    | 1 | 2 | _ + 3 => exact nomatch hi

def visitor : TypeIdVisitor where
  children k := typeIds k.components
  mem_children _ _ := mem_typeIds

theorem sort_types_ordered_iff_holder :
    ∃ n sorted, (∀ m, n ≤ m → holder.sortTypes visitor m 0 = some sorted) ∧
      sorted.Perm (holder.types 0) ∧ (holder.Ordered 0 sorted ↔
        ∀ t ∈ holder.types 0, ∀ u ∈ holder.types 0, u ≠ t →
          ¬(holder.Needs t.2 u.2 ∧ holder.Needs u.2 t.2)) :=
  sort_types_ordered_iff parsedHolder visitor 0

theorem record_before_resource :
    holder.sortTypes visitor 7 0 = some [("r", 2), ("res", 0)] ∧
      ¬∃ n sorted, holder.sortTypes visitor n 0 = some sorted ∧ holder.Ordered 0 sorted := by
  have hsorted : holder.sortTypes visitor 7 0 = some [("r", 2), ("res", 0)] := by decide
  refine ⟨hsorted, ?_⟩
  rintro ⟨n, sorted, hn, hordered⟩
  have hsame := (holder.sortTypes_mono visitor (Nat.le_max_left 7 n) hsorted).symm.trans
    (holder.sortTypes_mono visitor (Nat.le_max_right 7 n) hn)
  obtain rfl := Option.some.inj hsame
  have hneeds : holder.Needs 2 0 := .tail (.single (Or.inl (by decide))) (Or.inl (by decide : TypeRef.id 0 ∈ (holding.types 1).components))
  exact List.not_mem_nil (hordered [] ("r", 2) [("res", 0)] rfl ("res", 0) (by decide) (by decide) hneeds)

end Interfaces

end WitBindgen.Cpp
