import WitBindgen.Types.Equality
import Mathlib.Logic.Function.Basic

/-!
# What a type contains

`Types::analyze` starts with one record of flags for each definition of the arena: whether
there is a list, a tuple, a resource or a handle in its structure. The records are kept in a
table and each is computed from those of the parts, once; futures and streams have no parts,
for only their handles are passed on.
-/

namespace WitBindgen.Types

/-- The first three are about use, the others about structure. -/
structure TypeInfo where
  borrowed : Bool := false
  owned : Bool := false
  error : Bool := false
  hasList : Bool := false
  hasTuple : Bool := false
  hasResource : Bool := false
  hasBorrowHandle : Bool := false
  hasOwnHandle : Bool := false
deriving DecidableEq

/-- `bitor_assign`. -/
def TypeInfo.or (a b : TypeInfo) : TypeInfo where
  borrowed := a.borrowed || b.borrowed
  owned := a.owned || b.owned
  error := a.error || b.error
  hasList := a.hasList || b.hasList
  hasTuple := a.hasTuple || b.hasTuple
  hasResource := a.hasResource || b.hasResource
  hasBorrowHandle := a.hasBorrowHandle || b.hasBorrowHandle
  hasOwnHandle := a.hasOwnHandle || b.hasOwnHandle

/-- The table `type_info`. -/
abbrev Infos := TypeId → Option TypeInfo

/-- Code that works on the table; `none` is a panic. -/
abbrev InfoM := StateT Infos Option

/-- The assertion is that nothing was there. -/
def insert (ty : TypeId) (info : TypeInfo) : InfoM Unit := fun s =>
  match s ty with
  | some _ => none
  | none => some ((), Function.update s ty (some info))

/-! ## The computation -/

section

variable (r : Resolve) (f : TypeRef → InfoM TypeInfo)

def optionalTypeInfo : Option TypeRef → InfoM TypeInfo
  | some t => f t
  | none => pure {}

/-- `info |= g x` for each `x`. -/
def orAll {α : Type} (g : α → InfoM TypeInfo) : List α → TypeInfo → InfoM TypeInfo
  | [], info => pure info
  | x :: xs, info => do
      let other ← g x
      orAll g xs (info.or other)

/-- The record of a definition from those of its parts. -/
def kindInfo : TypeDefKind → InfoM TypeInfo
  | .record fields => orAll (fun field => f field.2) fields {}
  | .resource => pure { hasResource := true }
  | .handle (.borrow _) => pure { hasBorrowHandle := true, hasResource := true }
  | .handle (.own _) => pure { hasOwnHandle := true, hasResource := true }
  | .tuple types => do
      let info ← orAll f types {}
      return { info with hasTuple := true }
  | .flags _ | .enum _ => pure {}
  | .variant cases => orAll (fun case => optionalTypeInfo f case.2) cases {}
  | .list t => do
      let info ← f t
      return { info with hasList := true }
  | .type t | .option t | .fixedLengthList t _ => f t
  | .result ok err => do
      let info ← optionalTypeInfo f ok
      let other ← optionalTypeInfo f err
      return info.or other
  | .future _ | .stream _ => pure { hasResource := true, hasOwnHandle := true }
  | .map key value => do
      let info ← f key
      let other ← f value
      return { info.or other with hasList := true }
  | .unknown => fun _ => none

def typeInfo (idInfo : TypeId → InfoM TypeInfo) : TypeRef → InfoM TypeInfo
  | .string => pure { hasList := true }
  | .errorContext => pure { hasResource := true }
  | .id i => idInfo i
  | .prim _ => pure {}

/-- `type_id_info`, with a bound on the depth of the recursion. -/
def typeIdInfoTo : Nat → TypeId → InfoM TypeInfo
  | 0, _ => fun _ => none
  | n + 1, ty => fun s =>
    match s ty with
    | some info => some (info, s)
    | none => (do
        let info ← kindInfo (typeInfo (typeIdInfoTo n)) (r.types ty)
        insert ty info
        return info) s

def typeIdInfo (ty : TypeId) : InfoM TypeInfo := typeIdInfoTo r (r.weight (.id ty)) ty

end

/-! ## What there is in a type -/

/-- What the flags about structure are about. -/
inductive Trait where
  | list | tuple | resource | borrowHandle | ownHandle
deriving DecidableEq

def TypeInfo.has (info : TypeInfo) : Trait → Bool
  | .list => info.hasList
  | .tuple => info.hasTuple
  | .resource => info.hasResource
  | .borrowHandle => info.hasBorrowHandle
  | .ownHandle => info.hasOwnHandle

end WitBindgen.Types

namespace WitBindgen

/-- What a definition is by itself: futures and streams are owned handles. -/
def TypeDefKind.is : TypeDefKind → Types.Trait → Bool
  | .list _, .list | .map _ _, .list => true
  | .tuple _, .tuple => true
  | .resource, .resource | .handle _, .resource | .future _, .resource | .stream _, .resource => true
  | .handle (.borrow _), .borrowHandle => true
  | .handle (.own _), .ownHandle | .future _, .ownHandle | .stream _, .ownHandle => true
  | _, _ => false

/-- The components that a value holds values of. -/
def TypeDefKind.parts : TypeDefKind → List TypeRef
  | .handle _ | .future _ | .stream _ => []
  | k => k.components

theorem TypeDefKind.parts_subset (k : TypeDefKind) : k.parts ⊆ k.components := by
  intro t ht
  cases k with
  | handle | future | stream => exact absurd ht List.not_mem_nil
  | _ => exact ht

namespace Resolve

variable (r : Resolve)

def is : TypeRef → Types.Trait → Bool
  | .id i, x => (r.types i).is x
  | .string, .list => true
  | .errorContext, .resource => true
  | _, _ => false

/-- Something of the kind is in the structure of a type. -/
inductive Holds (p : TypeRef → Prop) : TypeRef → Prop
  | self {t : TypeRef} (h : p t) : Holds p t
  | part {i : TypeId} {t : TypeRef} (ht : t ∈ (r.types i).parts) (h : Holds p t) : Holds p (.id i)

def Has (t : TypeRef) (x : Types.Trait) : Prop := r.Holds (fun t => r.is t x = true) t

variable {r} {x : Types.Trait}

theorem has_id {i : TypeId} : r.Has (.id i) x ↔ (r.types i).is x = true ∨ ∃ t ∈ (r.types i).parts, r.Has t x := by
  constructor
  · intro h
    cases h with
    | self h => exact Or.inl h
    | part ht h => exact Or.inr ⟨_, ht, h⟩
  · rintro (h | ⟨t, ht, h⟩)
    · exact Holds.self h
    · exact Holds.part ht h

theorem has_leaf {t : TypeRef} (ht : ∀ i, t ≠ .id i) : r.Has t x ↔ r.is t x = true := by
  constructor
  · intro h
    cases h with
    | self h => exact h
    | part => exact absurd rfl (ht _)
  · exact fun h => Holds.self h

end Resolve

namespace Types

/-! ## The record of a type -/

/-- The record has just these flags. -/
structure Shows (S : Trait → Prop) (info : TypeInfo) : Prop where
  has : ∀ x, info.has x = true ↔ S x
  unused : info.borrowed = false ∧ info.owned = false ∧ info.error = false

variable {S T : Trait → Prop} {a b : TypeInfo}

theorem Shows.congr (h : Shows S a) (hST : ∀ x, S x ↔ T x) : Shows T a :=
  ⟨fun x => (h.has x).trans (hST x), h.unused⟩

theorem shows_none : Shows (fun _ => False) {} :=
  ⟨fun x => by cases x <;> simp [TypeInfo.has], rfl, rfl, rfl⟩

theorem Shows.or (ha : Shows S a) (hb : Shows T b) : Shows (fun x => S x ∨ T x) (a.or b) := by
  refine ⟨fun x => ?_, ?_⟩
  · rw [← ha.has x, ← hb.has x]
    cases x <;> simp [TypeInfo.has, TypeInfo.or]
  · obtain ⟨hb₁, hb₂, hb₃⟩ := hb.unused
    obtain ⟨ha₁, ha₂, ha₃⟩ := ha.unused
    simp [TypeInfo.or, ha₁, ha₂, ha₃, hb₁, hb₂, hb₃]

theorem Shows.withList (h : Shows S a) : Shows (fun x => x = .list ∨ S x) { a with hasList := true } := by
  refine ⟨fun x => ?_, h.unused⟩
  rw [← h.has x]
  cases x <;> simp [TypeInfo.has]

theorem Shows.withTuple (h : Shows S a) : Shows (fun x => x = .tuple ∨ S x) { a with hasTuple := true } := by
  refine ⟨fun x => ?_, h.unused⟩
  rw [← h.has x]
  cases x <;> simp [TypeInfo.has]

variable {r : Resolve} {s s' : Infos}

/-- Nothing in the table is wrong. -/
def Sound (r : Resolve) (s : Infos) : Prop := ∀ i info, s i = some info → Shows (r.Has (.id i)) info

/-- What is in the table stays there. -/
def Grows (s s' : Infos) : Prop := ∀ i info, s i = some info → s' i = some info

theorem Grows.trans {s'' : Infos} (h : Grows s s') (h' : Grows s' s'') : Grows s s'' :=
  fun i info hi => h' i info (h i info hi)

/-- The code ends with a result of the kind `P`, and adds records of rank below `n` to the table. -/
def Yields (r : Resolve) (n : Nat) {α : Type} (m : InfoM α) (P : α → Infos → Prop) : Prop :=
  ∀ s, Sound r s → ∃ a s', m s = some (a, s') ∧ P a s' ∧ Sound r s' ∧ Grows s s' ∧
    ∀ j, n ≤ r.rank j → s' j = s j

section

variable {n : Nat} {α β : Type} {m : InfoM α} {P Q : α → Infos → Prop}

theorem Yields.mono {k : Nat} (h : Yields r n m P) (hn : n ≤ k) (hPQ : ∀ a s, P a s → Q a s) : Yields r k m Q := by
  intro s hs
  obtain ⟨a, s', hm, hP, hsound, hgrows, hframe⟩ := h s hs
  exact ⟨a, s', hm, hPQ a s' hP, hsound, hgrows, fun j hj => hframe j (Nat.le_trans hn hj)⟩

theorem yields_pure {a : α} (h : ∀ s, P a s) : Yields r n (pure a) P :=
  fun s hs => ⟨a, s, rfl, h s, hs, fun _ _ => id, fun _ _ => rfl⟩

/-- The table does not matter for `P`. -/
theorem Yields.bind {P : α → Prop} {Q : β → Infos → Prop} {f : α → InfoM β} (h : Yields r n m fun a _ => P a)
    (hf : ∀ a, P a → Yields r n (f a) Q) : Yields r n (m >>= f) Q := by
  intro s hs
  obtain ⟨a, s₁, hm, hP, hs₁, hgrows, hframe⟩ := h s hs
  obtain ⟨b, s₂, hf, hQ, hs₂, hgrows', hframe'⟩ := hf a hP s₁ hs₁
  refine ⟨b, s₂, ?_, hQ, hs₂, hgrows.trans hgrows', fun j hj => (hframe' j hj).trans (hframe j hj)⟩
  show (m s).bind _ = _
  rw [hm]
  exact hf

end

section

variable {n : Nat} {f : TypeRef → InfoM TypeInfo}

/-- The code gives the record with these flags. -/
abbrev Gives (r : Resolve) (n : Nat) (m : InfoM TypeInfo) (S : Trait → Prop) : Prop :=
  Yields r n m fun info _ => Shows S info

theorem orAll_gives {α : Type} {g : α → InfoM TypeInfo} {U : α → Trait → Prop} {xs : List α} {info : TypeInfo}
    (hg : ∀ x ∈ xs, Gives r n (g x) (U x)) (h : Shows S info) :
    Gives r n (orAll g xs info) fun t => S t ∨ ∃ x ∈ xs, U x t := by
  induction xs generalizing info S with
  | nil => exact yields_pure fun _ => h.congr (by simp)
  | cons x xs ih =>
    refine (hg x List.mem_cons_self).bind fun other hother => ?_
    refine (ih (fun y hy => hg y (List.mem_cons_of_mem _ hy)) (h.or hother)).mono (Nat.le_refl n) fun _ _ hshows => ?_
    exact hshows.congr fun t => by simp [or_assoc]

theorem optionalTypeInfo_gives {o : Option TypeRef} (h : ∀ t ∈ o, Gives r n (f t) (r.Has t)) :
    Gives r n (optionalTypeInfo f o) fun x => ∃ t ∈ o, r.Has t x := by
  cases o with
  | none => exact yields_pure fun _ => shows_none.congr (by simp)
  | some t => exact (h t rfl).mono (Nat.le_refl n) fun _ _ hshows => hshows.congr (by simp)

theorem kindInfo_gives {k : TypeDefKind} (hk : k ≠ .unknown) (h : ∀ t ∈ k.parts, Gives r n (f t) (r.Has t)) :
    Gives r n (kindInfo f k) fun x => k.is x = true ∨ ∃ t ∈ k.parts, r.Has t x := by
  cases k with
  | record fields =>
    refine (orAll_gives (U := fun field => r.Has field.2) (fun field hfield => ?_) shows_none).mono
      (Nat.le_refl n) fun _ _ hshows => hshows.congr fun x => ?_
    · exact h field.2 (List.mem_map_of_mem hfield)
    · simp only [TypeDefKind.is, TypeDefKind.parts, TypeDefKind.components, List.mem_map, false_or,
        Bool.false_eq_true]
      constructor
      · rintro ⟨field, hfield, hx⟩
        exact ⟨field.2, ⟨field, hfield, rfl⟩, hx⟩
      · rintro ⟨t, ⟨field, hfield, rfl⟩, hx⟩
        exact ⟨field, hfield, hx⟩
  | resource =>
    exact yields_pure fun _ => ⟨fun x => by cases x <;> simp [TypeInfo.has, TypeDefKind.is, TypeDefKind.parts,
      TypeDefKind.components], rfl, rfl, rfl⟩
  | handle handle =>
    cases handle <;>
    exact yields_pure fun _ => ⟨fun x => by cases x <;> simp [TypeInfo.has, TypeDefKind.is, TypeDefKind.parts],
      rfl, rfl, rfl⟩
  | tuple types =>
    refine (orAll_gives (U := r.Has) h shows_none).bind fun info hinfo => yields_pure fun _ => ?_
    exact hinfo.withTuple.congr fun x => by cases x <;> simp [TypeDefKind.is, TypeDefKind.parts, TypeDefKind.components]
  | flags | enum =>
    exact yields_pure fun _ => shows_none.congr fun x => by
      simp [TypeDefKind.is, TypeDefKind.parts, TypeDefKind.components]
  | variant cases =>
    refine (orAll_gives (U := fun case x => ∃ t ∈ case.2, r.Has t x) (fun case hcase => ?_) shows_none).mono
      (Nat.le_refl n) fun _ _ hshows => hshows.congr fun x => ?_
    · refine optionalTypeInfo_gives fun t ht => h t ?_
      exact List.mem_flatMap.mpr ⟨case, hcase, Option.mem_toList.mpr ht⟩
    · simp only [TypeDefKind.is, TypeDefKind.parts, TypeDefKind.components, List.mem_flatMap, Option.mem_toList,
        false_or, Bool.false_eq_true]
      constructor
      · rintro ⟨case, hcase, t, ht, hx⟩
        exact ⟨t, ⟨case, hcase, ht⟩, hx⟩
      · rintro ⟨t, ⟨case, hcase, ht⟩, hx⟩
        exact ⟨case, hcase, t, ht, hx⟩
  | list t =>
    refine (h t (List.mem_singleton_self t)).bind fun info hinfo => yields_pure fun _ => ?_
    exact hinfo.withList.congr fun x => by cases x <;> simp [TypeDefKind.is, TypeDefKind.parts, TypeDefKind.components]
  | type t | option t | fixedLengthList t =>
    refine (h t (List.mem_singleton_self t)).mono (Nat.le_refl n) fun _ _ hshows => hshows.congr fun x => ?_
    simp [TypeDefKind.is, TypeDefKind.parts, TypeDefKind.components]
  | result ok err =>
    have hok : ∀ t ∈ ok, Gives r n (f t) (r.Has t) := fun t ht =>
      h t (List.mem_append_left _ (Option.mem_toList.mpr ht))
    have herr : ∀ t ∈ err, Gives r n (f t) (r.Has t) := fun t ht =>
      h t (List.mem_append_right _ (Option.mem_toList.mpr ht))
    refine (optionalTypeInfo_gives hok).bind fun info hinfo => ?_
    refine (optionalTypeInfo_gives herr).bind fun other hother => yields_pure fun _ => ?_
    exact (hinfo.or hother).congr fun x => by
      simp [TypeDefKind.is, TypeDefKind.parts, TypeDefKind.components, or_and_right, exists_or]
  | future | stream =>
    exact yields_pure fun _ => ⟨fun x => by cases x <;> simp [TypeInfo.has, TypeDefKind.is, TypeDefKind.parts],
      rfl, rfl, rfl⟩
  | map key value =>
    refine (h key List.mem_cons_self).bind fun info hinfo => ?_
    refine (h value (List.mem_cons_of_mem _ (List.mem_singleton_self value))).bind fun other hother =>
      yields_pure fun _ => ?_
    exact (hinfo.or hother).withList.congr fun x => by
      cases x <;> simp [TypeDefKind.is, TypeDefKind.parts, TypeDefKind.components]
  | unknown => exact absurd rfl hk

end

theorem typeInfo_gives {n : Nat} {idInfo : TypeId → InfoM TypeInfo} {t : TypeRef}
    (h : ∀ i, t = .id i → Gives r n (idInfo i) (r.Has (.id i))) : Gives r n (typeInfo idInfo t) (r.Has t) := by
  cases t with
  | prim p =>
    refine yields_pure fun _ => shows_none.congr fun x => ?_
    rw [Resolve.has_leaf (t := .prim p) nofun]
    cases x <;> simp [Resolve.is]
  | string =>
    refine yields_pure fun _ => ⟨fun x => ?_, rfl, rfl, rfl⟩
    rw [Resolve.has_leaf (t := .string) nofun]
    cases x <;> simp [TypeInfo.has, Resolve.is]
  | errorContext =>
    refine yields_pure fun _ => ⟨fun x => ?_, rfl, rfl, rfl⟩
    rw [Resolve.has_leaf (t := .errorContext) nofun]
    cases x <;> simp [TypeInfo.has, Resolve.is]
  | id i => exact h i rfl

theorem typeIdInfoTo_yields {n : Nat} {i : TypeId} (hn : r.weight (.id i) ≤ n) :
    Yields r (r.weight (.id i)) (typeIdInfoTo r n i) fun info s => Shows (r.Has (.id i)) info ∧ s i = some info := by
  induction n generalizing i with
  | zero => exact absurd hn (Nat.not_succ_le_zero _)
  | succ n ih =>
    intro s hs
    simp only [typeIdInfoTo]
    cases hi : s i with
    | some info => exact ⟨info, s, rfl, ⟨hs i info hi, hi⟩, hs, fun _ _ => id, fun _ _ => rfl⟩
    | none =>
      -- the parts are of lower rank, so they leave the place of `i` empty
      have hparts : ∀ t ∈ (r.types i).parts, Gives r (r.rank i) (typeInfo (typeIdInfoTo r n) t) (r.Has t) := by
        intro t ht
        have hlt := r.weight_lt (TypeDefKind.parts_subset _ ht)
        refine typeInfo_gives fun j hj => ?_
        subst hj
        exact (ih (Nat.le_of_lt_succ (Nat.lt_of_lt_of_le hlt hn))).mono (Nat.le_of_lt_succ hlt) fun _ _ h => h.1
      obtain ⟨info, s₁, hm, hshows, hs₁, hgrows, hframe⟩ := kindInfo_gives (r.known i) hparts s hs
      have hvacant : s₁ i = none := (hframe i (Nat.le_refl _)).trans hi
      have hexact : Shows (r.Has (.id i)) info := hshows.congr fun x => Resolve.has_id.symm
      refine ⟨info, Function.update s₁ i (some info), ?_, ⟨hexact, Function.update_self ..⟩, ?_, ?_, ?_⟩
      · show (kindInfo _ _ s).bind _ = _
        rw [hm]
        show (insert i info s₁).bind _ = _
        simp only [insert, hvacant]
        rfl
      · intro j info' hj
        by_cases hji : j = i
        · subst hji
          rw [Function.update_self] at hj
          exact Option.some.inj hj ▸ hexact
        · rw [Function.update_of_ne hji] at hj
          exact hs₁ j info' hj
      · intro j info' hj
        by_cases hji : j = i
        · subst hji
          exact nomatch hi.symm.trans hj
        · rw [Function.update_of_ne hji]
          exact hgrows j info' hj
      · intro j hj
        have hji : j ≠ i := by
          rintro rfl
          exact Nat.not_succ_le_self _ hj
        rw [Function.update_of_ne hji]
        exact hframe j (Nat.le_of_succ_le hj)

theorem typeIdInfo_yields (i : TypeId) :
    Yields r (r.weight (.id i)) (typeIdInfo r i) fun info s => Shows (r.Has (.id i)) info ∧ s i = some info :=
  typeIdInfoTo_yields (Nat.le_refl _)

/-- A record that is in the table is only looked up. -/
theorem typeIdInfo_known {i : TypeId} {info : TypeInfo} (h : s i = some info) :
    typeIdInfo r i s = some (info, s) := by
  show typeIdInfoTo r (r.rank i + 1) i s = _
  simp only [typeIdInfoTo, h]

end WitBindgen.Types
