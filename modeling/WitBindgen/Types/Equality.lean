import WitBindgen.Types.Shape
import WitBindgen.Library.UnionFind
import Mathlib.Tactic.Common

/-!
# Structurally equal types

`Types::collect_equal_types`: a scan over the live types that joins each type
with the first earlier one it is structurally equal to. The comparison recurses
through the arena and consults the classes found so far; the scan looks only at
types the backend says may alias another one.
-/

namespace WitBindgen

/-! ## The comparison -/

/-- The union-find is threaded through; `none` is a panic. -/
abbrev TypesM := StateT (UnionFind TypeId) Option

def find (id : TypeId) : TypesM TypeId := fun u => some (u.find id).1

def union (a b : TypeId) : TypesM Unit := fun u => some ((), u.union a b)

/-- The comparison of two definitions, given that of what they refer to. -/
def definitionsEqual (eqIds : TypeId → TypeId → TypesM Bool)
    (eqIdToType : TypeId → TypeRef → TypesM Bool) (eqTypes : TypeRef → TypeRef → TypesM Bool)
    (eqOptional : Option TypeRef → Option TypeRef → TypesM Bool) (a b : TypeId) :
    TypeDefKind → TypeDefKind → TypesM Bool
  -- peel off typedef layers
  | .type t, _ => eqIdToType b t
  | _, .type t => eqIdToType a t
  | .record fa, .record fb =>
    if fa.length = fb.length then
      (fa.zip fb).allM fun x => if x.1.1 = x.2.1 then eqTypes x.1.2 x.2.2 else pure false
    else pure false
  | .variant ca, .variant cb =>
    if ca.length = cb.length then
      (ca.zip cb).allM fun x => if x.1.1 = x.2.1 then eqOptional x.1.2 x.2.2 else pure false
    else pure false
  | .enum ca, .enum cb => pure (ca = cb)
  | .flags fa, .flags fb => pure (fa = fb)
  | .tuple ta, .tuple tb =>
    if ta.length = tb.length then (ta.zip tb).allM fun x => eqTypes x.1 x.2 else pure false
  | .list ta, .list tb => eqTypes ta tb
  | .fixedLengthList ta sa, .fixedLengthList tb sb =>
    if sa = sb then eqTypes ta tb else pure false
  | .option ta, .option tb => eqTypes ta tb
  | .result oka erra, .result okb errb => do
      if ← eqOptional oka okb then eqOptional erra errb else pure false
  | .map ka va, .map kb vb => do
      if ← eqTypes ka kb then eqTypes va vb else pure false
  | .future ta, .future tb => eqOptional ta tb
  | .stream ta, .stream tb => eqOptional ta tb
  | .handle ha, .handle hb =>
    match ha, hb with
    | .own a, .own b => eqIds a b
    | .borrow a, .borrow b => eqIds a b
    | _, _ => pure false
  | .unknown, _ => failure
  -- resources are only equal if their ids are
  | .resource, .resource => pure (a = b)
  | _, _ => pure false

variable (r : Resolve)

mutual
/-- `n` bounds the depth of the recursion. -/
def isStructurallyEqual : Nat → TypeId → TypeId → TypesM Bool
  | 0, _, _ => failure
  | n + 1, a, b => do
      let ra ← find a
      let rb ← find b
      if ra = rb then pure true
      else
        definitionsEqual (isStructurallyEqual n) (typeIdEqualToType n) (typesEqual n)
          (optionalTypesEqual n) a b (r.types a) (r.types b)

def typesEqual : Nat → TypeRef → TypeRef → TypesM Bool
  | 0, _, _ => failure
  | n + 1, a, b =>
    match a, b with
    | .id a, b => typeIdEqualToType n a b
    | a, .id b => typeIdEqualToType n b a
    | a, b => pure (a = b)

def typeIdEqualToType : Nat → TypeId → TypeRef → TypesM Bool
  | 0, _, _ => failure
  | n + 1, a, b =>
    match r.types a, b with
    | .type t, b => typesEqual n t b
    | _, .id b => isStructurallyEqual n a b
    | _, _ => pure false

def optionalTypesEqual : Nat → Option TypeRef → Option TypeRef → TypesM Bool
  | 0, _, _ => failure
  | n + 1, a, b =>
    match a, b with
    | some a, some b => typesEqual n a b
    | none, none => pure true
    | _, _ => pure false
end

/-- Deep enough for every comparison of `a` and `b`. -/
def equalityDepth (a b : TypeId) : Nat := 4 * (r.weight (.id a) + r.weight (.id b)) + 1

/-! ## The scan -/

/-- The inner loop of `collect_equal_types`. -/
def joinFirstEqual (ty : TypeId) : List TypeId → TypesM Unit
  | [] => pure ()
  | earlier :: rest => do
      let rt ← find ty
      let re ← find earlier
      if rt = re then joinFirstEqual ty rest
      else if ← isStructurallyEqual r (equalityDepth r ty earlier) ty earlier then
        union ty earlier
      else joinFirstEqual ty rest

/-- One turn of the outer loop, for a type behind those in `earlier`. -/
def scanType (mayAlias : TypeId → Bool) (earlier : List TypeId) (ty : TypeId) : TypesM Unit :=
  if mayAlias ty then joinFirstEqual r ty earlier else pure ()

def collectFrom (mayAlias : TypeId → Bool) (earlier : List TypeId) : List TypeId → TypesM Unit
  | [] => pure ()
  | ty :: rest => do
      scanType r mayAlias earlier ty
      collectFrom mayAlias (earlier ++ [ty]) rest

def collectEqualTypes (live : List TypeId) (mayAlias : TypeId → Bool) : TypesM Unit :=
  collectFrom r mayAlias [] live

def getRepresentativeType (id : TypeId) : TypesM TypeId := find id

/-! ## What the comparison decides -/

/-- `m` decides `P` and leaves every class as it is, as long as only types of
one shape share a class. -/
def Decides (m : TypesM Bool) (P : Prop) : Prop :=
  ∀ u : UnionFind TypeId, (∀ a b, u.Same a b → r.shape (.id a) = r.shape (.id b)) →
    ∃ b u', m u = some (b, u') ∧ (b = true ↔ P) ∧ ∀ x, u'.root x = u.root x

variable {r}

theorem Decides.pure {b : Bool} {P : Prop} (h : b = true ↔ P) : Decides r (pure b) P :=
  fun u _ => ⟨b, u, rfl, h, fun _ => rfl⟩

theorem Decides.congr {m : TypesM Bool} {P Q : Prop} (h : Decides r m P) (hpq : P ↔ Q) :
    Decides r m Q := by
  intro u hu
  obtain ⟨b, u', hrun, hb, hroots⟩ := h u hu
  exact ⟨b, u', hrun, hb.trans hpq, hroots⟩

/-- The second comparison is made only when the first one succeeds. -/
theorem Decides.and {m m' : TypesM Bool} {P Q : Prop} (h : Decides r m P) (h' : Decides r m' Q) :
    Decides r (m >>= fun b => if b then m' else Pure.pure false) (P ∧ Q) := by
  intro u hu
  obtain ⟨b, u', hrun, hb, hroots⟩ := h u hu
  have hbind : ∀ f : Bool → TypesM Bool, (m >>= f) u = f b u' := fun f => by
    show (m u >>= fun p => f p.1 p.2) = _
    rw [hrun]
    rfl
  rw [hbind]
  cases b with
  | false => exact ⟨false, u', rfl, by simp [← hb], hroots⟩
  | true =>
    have hu' : ∀ a b, u'.Same a b → r.shape (.id a) = r.shape (.id b) := fun a b hab =>
      hu a b (by rwa [UnionFind.Same, hroots, hroots] at hab)
    obtain ⟨b', u'', hrun', hb', hroots'⟩ := h' u' hu'
    exact ⟨b', u'', hrun', by simp [hb', ← hb], fun x => (hroots' x).trans (hroots x)⟩

theorem Decides.ite {c : Prop} [Decidable c] {m : TypesM Bool} {P : Prop} (h : Decides r m P) :
    Decides r (if c then m else Pure.pure false) (c ∧ P) := by
  split
  · next hc => exact h.congr (by simp [hc])
  · next hc => exact Decides.pure (by simp [hc])

theorem Decides.allM {α : Type} {f : α → TypesM Bool} {P : α → Prop} (xs : List α)
    (h : ∀ x ∈ xs, Decides r (f x) (P x)) : Decides r (xs.allM f) (∀ x ∈ xs, P x) := by
  induction xs with
  | nil => exact Decides.pure (by simp)
  | cons x xs ih =>
    have hand := (h x List.mem_cons_self).and (ih fun y hy => h y (List.mem_cons_of_mem _ hy))
    have hrun : (x :: xs).allM f = (f x >>= fun b => if b then xs.allM f else Pure.pure false) := by
      rw [List.allM]
      congr 1
      funext b
      cases b <;> rfl
    rw [hrun]
    exact hand.congr (by simp)

theorem map_eq_map_iff {α β γ : Type} {f : α → γ} {g : β → γ} {xs : List α} {ys : List β} :
    xs.map f = ys.map g ↔ xs.length = ys.length ∧ ∀ x ∈ xs.zip ys, f x.1 = g x.2 := by
  induction xs generalizing ys with
  | nil => cases ys <;> simp
  | cons x xs ih =>
    cases ys with
    | nil => simp
    | cons y ys => simp [ih, and_left_comm]

section
variable {eqIds : TypeId → TypeId → TypesM Bool} {eqIdToType : TypeId → TypeRef → TypesM Bool}
  {eqTypes : TypeRef → TypeRef → TypesM Bool}
  {eqOptional : Option TypeRef → Option TypeRef → TypesM Bool} {a b : TypeId}
  {ka kb : TypeDefKind}

/-- A typedef on the right is peeled when there is none on the left. -/
theorem definitionsEqual_type (h : ∀ t, ka ≠ .type t) (t : TypeRef) :
    definitionsEqual eqIds eqIdToType eqTypes eqOptional a b ka (.type t) = eqIdToType a t := by
  cases ka with
  | type s => exact absurd rfl (h s)
  | _ => rfl

variable (eqIds eqIdToType eqTypes eqOptional) in
theorem definitionsEqual_decides (ha : r.types a = ka) (hb : r.types b = kb)
    (hids : ∀ a' b', .id a' ∈ ka.components → .id b' ∈ kb.components →
      Decides r (eqIds a' b') (r.shape (.id a') = r.shape (.id b')))
    (hleft : ∀ t ∈ ka.components, Decides r (eqIdToType b t) (r.shape (.id b) = r.shape t))
    (hright : ∀ t ∈ kb.components, Decides r (eqIdToType a t) (r.shape (.id a) = r.shape t))
    (htypes : ∀ t ∈ ka.components, ∀ s ∈ kb.components,
      Decides r (eqTypes t s) (r.shape t = r.shape s))
    (hoptional : ∀ t s : Option TypeRef, (∀ x ∈ t, x ∈ ka.components) →
      (∀ x ∈ s, x ∈ kb.components) →
      Decides r (eqOptional t s) (t.map r.shape = s.map r.shape)) :
    Decides r (definitionsEqual eqIds eqIdToType eqTypes eqOptional a b ka kb)
      (ka.shape a r.shape = kb.shape b r.shape) := by
  have hsa : r.shape (.id a) = ka.shape a r.shape := by rw [Resolve.shape_id, ha]
  have hsb : r.shape (.id b) = kb.shape b r.shape := by rw [Resolve.shape_id, hb]
  have hka : ka ≠ .unknown := ha ▸ r.known a
  have hkb : kb ≠ .unknown := hb ▸ r.known b
  by_cases hta : ∃ t, ka = .type t
  · obtain ⟨t, rfl⟩ := hta
    refine (hleft t List.mem_cons_self).congr ?_
    rw [hsb]
    exact eq_comm
  have hna : ∀ t, ka ≠ .type t := fun t h => hta ⟨t, h⟩
  by_cases htb : ∃ t, kb = .type t
  · obtain ⟨t, rfl⟩ := htb
    rw [definitionsEqual_type hna]
    refine (hright t List.mem_cons_self).congr ?_
    rw [hsa]
    rfl
  have hnb : ∀ t, kb ≠ .type t := fun t h => htb ⟨t, h⟩
  cases ka with
  | type t => exact absurd rfl (hna t)
  | unknown => exact absurd rfl hka
  | record fa =>
    cases kb with
    | type t => exact absurd rfl (hnb t)
    | record fb =>
      have hall := Decides.allM (r := r) (fa.zip fb) (f := fun x =>
        if x.1.1 = x.2.1 then eqTypes x.1.2 x.2.2 else Pure.pure false) fun x hx =>
        Decides.ite (c := x.1.1 = x.2.1) (htypes x.1.2
          (List.mem_map_of_mem (List.of_mem_zip hx).1) x.2.2
          (List.mem_map_of_mem (List.of_mem_zip hx).2))
      refine (Decides.ite (c := fa.length = fb.length) hall).congr ?_
      simp [TypeDefKind.shape, map_eq_map_iff, Prod.ext_iff]
    | _ => exact Decides.pure (by simp [TypeDefKind.shape])
  | variant ca =>
    cases kb with
    | type t => exact absurd rfl (hnb t)
    | variant cb =>
      have hall := Decides.allM (r := r) (ca.zip cb) (f := fun x =>
        if x.1.1 = x.2.1 then eqOptional x.1.2 x.2.2 else Pure.pure false) fun x hx =>
        Decides.ite (c := x.1.1 = x.2.1) (hoptional x.1.2 x.2.2
          (fun t ht => List.mem_flatMap.mpr ⟨_, (List.of_mem_zip hx).1, by simpa using ht⟩)
          (fun t ht => List.mem_flatMap.mpr ⟨_, (List.of_mem_zip hx).2, by simpa using ht⟩))
      refine (Decides.ite (c := ca.length = cb.length) hall).congr ?_
      simp [TypeDefKind.shape, map_eq_map_iff, Prod.ext_iff]
    | _ => exact Decides.pure (by simp [TypeDefKind.shape])
  | tuple ta =>
    cases kb with
    | type t => exact absurd rfl (hnb t)
    | tuple tb =>
      have hall := Decides.allM (r := r) (ta.zip tb) (f := fun x => eqTypes x.1 x.2)
        fun x hx => htypes x.1 (List.of_mem_zip hx).1 x.2 (List.of_mem_zip hx).2
      refine (Decides.ite (c := ta.length = tb.length) hall).congr ?_
      simp [TypeDefKind.shape, map_eq_map_iff]
    | _ => exact Decides.pure (by simp [TypeDefKind.shape])
  | enum ca | flags ca | resource =>
    cases kb with
    | type t => exact absurd rfl (hnb t)
    | _ => exact Decides.pure (by simp [TypeDefKind.shape])
  | list ta =>
    cases kb with
    | type t => exact absurd rfl (hnb t)
    | list tb =>
      exact (htypes ta List.mem_cons_self tb List.mem_cons_self).congr
        (by simp [TypeDefKind.shape])
    | _ => exact Decides.pure (by simp [TypeDefKind.shape])
  | option ta =>
    cases kb with
    | type t => exact absurd rfl (hnb t)
    | option tb =>
      exact (htypes ta List.mem_cons_self tb List.mem_cons_self).congr
        (by simp [TypeDefKind.shape])
    | _ => exact Decides.pure (by simp [TypeDefKind.shape])
  | fixedLengthList ta sa =>
    cases kb with
    | type t => exact absurd rfl (hnb t)
    | fixedLengthList tb sb =>
      refine (Decides.ite (c := sa = sb)
        (htypes ta List.mem_cons_self tb List.mem_cons_self)).congr ?_
      simp [TypeDefKind.shape, and_comm]
    | _ => exact Decides.pure (by simp [TypeDefKind.shape])
  | result oka erra =>
    cases kb with
    | type t => exact absurd rfl (hnb t)
    | result okb errb =>
      have hok := hoptional oka okb
        (fun t ht => List.mem_append_left _ (by simpa using ht))
        (fun t ht => List.mem_append_left _ (by simpa using ht))
      have herr := hoptional erra errb
        (fun t ht => List.mem_append_right _ (by simpa using ht))
        (fun t ht => List.mem_append_right _ (by simpa using ht))
      exact (hok.and herr).congr (by simp [TypeDefKind.shape])
    | _ => exact Decides.pure (by simp [TypeDefKind.shape])
  | map ka va =>
    cases kb with
    | type t => exact absurd rfl (hnb t)
    | map kb vb =>
      have hkey := htypes ka List.mem_cons_self kb List.mem_cons_self
      have hvalue := htypes va (List.mem_cons_of_mem _ List.mem_cons_self) vb
        (List.mem_cons_of_mem _ List.mem_cons_self)
      exact (hkey.and hvalue).congr (by simp [TypeDefKind.shape])
    | _ => exact Decides.pure (by simp [TypeDefKind.shape])
  | future ta =>
    cases kb with
    | type t => exact absurd rfl (hnb t)
    | future tb =>
      exact (hoptional ta tb (fun t ht => by simpa [TypeDefKind.components] using ht)
        (fun t ht => by simpa [TypeDefKind.components] using ht)).congr
        (by simp [TypeDefKind.shape])
    | _ => exact Decides.pure (by simp [TypeDefKind.shape])
  | stream ta =>
    cases kb with
    | type t => exact absurd rfl (hnb t)
    | stream tb =>
      exact (hoptional ta tb (fun t ht => by simpa [TypeDefKind.components] using ht)
        (fun t ht => by simpa [TypeDefKind.components] using ht)).congr
        (by simp [TypeDefKind.shape])
    | _ => exact Decides.pure (by simp [TypeDefKind.shape])
  | handle hda =>
    cases kb with
    | type t => exact absurd rfl (hnb t)
    | handle hdb =>
      have hresources := hids hda.resource hdb.resource List.mem_cons_self List.mem_cons_self
      cases hda <;> cases hdb
      · exact hresources.congr (by simp [TypeDefKind.shape, Handle.resource, Handle.isOwn])
      · exact Decides.pure (by simp [TypeDefKind.shape, Handle.isOwn])
      · exact Decides.pure (by simp [TypeDefKind.shape, Handle.isOwn])
      · exact hresources.congr (by simp [TypeDefKind.shape, Handle.resource, Handle.isOwn])
    | _ => exact Decides.pure (by simp [TypeDefKind.shape])

end

theorem typeIdEqualToType_type {n : Nat} {a : TypeId} {b t : TypeRef} (h : r.types a = .type t) :
    typeIdEqualToType r (n + 1) a b = typesEqual r n t b := by
  simp only [typeIdEqualToType, h]

/-- A type that is no typedef can only be equal to a definition. -/
theorem typeIdEqualToType_of_ne {n : Nat} {a : TypeId} (h : ∀ t, r.types a ≠ .type t)
    (b : TypeRef) : typeIdEqualToType r (n + 1) a b =
      match b with
      | .id b => isStructurallyEqual r n a b
      | _ => pure false := by
  cases hk : r.types a with
  | type t => exact absurd hk (h t)
  | _ => cases b <;> simp only [typeIdEqualToType, hk]

/-- Weight of an optional component. -/
def Resolve.optionWeight (r : Resolve) (o : Option TypeRef) : Nat := (o.map r.weight).getD 0

/-- Looked at deep enough, every comparison decides equality of shapes. -/
theorem equal_decides (n : Nat) :
    (∀ a b, 4 * (r.weight (.id a) + r.weight (.id b)) + 1 ≤ n →
      Decides r (isStructurallyEqual r n a b) (r.shape (.id a) = r.shape (.id b))) ∧
    (∀ a b, 4 * (r.weight a + r.weight b) + 3 ≤ n →
      Decides r (typesEqual r n a b) (r.shape a = r.shape b)) ∧
    (∀ a b, 4 * (r.weight (.id a) + r.weight b) + 2 ≤ n →
      Decides r (typeIdEqualToType r n a b) (r.shape (.id a) = r.shape b)) ∧
    (∀ a b, 4 * (r.optionWeight a + r.optionWeight b) + 4 ≤ n →
      Decides r (optionalTypesEqual r n a b) (a.map r.shape = b.map r.shape)) := by
  induction n with
  | zero =>
    exact ⟨fun _ _ h => by omega, fun _ _ h => by omega, fun _ _ h => by omega,
      fun _ _ h => by omega⟩
  | succ n ih =>
    obtain ⟨ihIds, ihTypes, ihIdToType, ihOptional⟩ := ih
    refine ⟨fun a b hn => ?_, fun a b hn => ?_, fun a b hn => ?_, fun a b hn => ?_⟩
    · have hoptionWeight : ∀ {i : TypeId} {o : Option TypeRef},
          (∀ x ∈ o, x ∈ (r.types i).components) → r.optionWeight o < r.weight (.id i) := by
        intro i o ho
        cases o with
        | none => exact Nat.succ_pos _
        | some t => exact r.weight_lt (ho t rfl)
      have hdefs := definitionsEqual_decides (isStructurallyEqual r n) (typeIdEqualToType r n)
        (typesEqual r n) (optionalTypesEqual r n) (r := r) (a := a) (b := b) rfl rfl
        (fun a' b' ha hb => ihIds a' b' (by
          have h₁ := r.weight_lt ha; have h₂ := r.weight_lt hb; omega))
        (fun t ht => ihIdToType b t (by have h₁ := r.weight_lt ht; omega))
        (fun t ht => ihIdToType a t (by have h₁ := r.weight_lt ht; omega))
        (fun t ht s hs => ihTypes t s (by
          have h₁ := r.weight_lt ht; have h₂ := r.weight_lt hs; omega))
        (fun t s ht hs => ihOptional t s (by
          have h₁ := hoptionWeight ht; have h₂ := hoptionWeight hs; omega))
      rw [← Resolve.shape_id, ← Resolve.shape_id] at hdefs
      intro u hu
      -- two lookups first: the classes found so far answer some comparisons
      obtain ⟨v, hv, hroots⟩ : ∃ v, isStructurallyEqual r (n + 1) a b u =
          (if u.root a = u.root b then pure true else
            definitionsEqual (isStructurallyEqual r n) (typeIdEqualToType r n) (typesEqual r n)
              (optionalTypesEqual r n) a b (r.types a) (r.types b) : TypesM Bool) v ∧
          ∀ x, v.root x = u.root x := by
        refine ⟨((u.find a).1.2.find b).1.2, ?_, fun x => by simp⟩
        have hb : ((u.find a).1.2.find b).1.1 = u.root b := u.root_find a b
        rw [← hb]
        rfl
      have hsame : ∀ c d, v.Same c d → r.shape (.id c) = r.shape (.id d) := fun c d h =>
        hu c d (by rwa [UnionFind.Same, hroots, hroots] at h)
      rw [hv]
      split
      · next h => exact ⟨true, v, rfl, by simp [hu a b h], hroots⟩
      · obtain ⟨x, v', hrun, hx, hroots'⟩ := hdefs v hsame
        exact ⟨x, v', hrun, hx, fun y => (hroots' y).trans (hroots y)⟩
    · cases a with
      | id a => exact ihIdToType a b (by omega)
      | prim p =>
        cases b with
        | id b => exact (ihIdToType b (.prim p) (by omega)).congr eq_comm
        | _ => exact Decides.pure (by simp [Resolve.shape, Resolve.shapeTo])
      | string =>
        cases b with
        | id b => exact (ihIdToType b .string (by omega)).congr eq_comm
        | _ => exact Decides.pure (by simp [Resolve.shape, Resolve.shapeTo])
      | errorContext =>
        cases b with
        | id b => exact (ihIdToType b .errorContext (by omega)).congr eq_comm
        | _ => exact Decides.pure (by simp [Resolve.shape, Resolve.shapeTo])
    · by_cases hta : ∃ t, r.types a = .type t
      · obtain ⟨t, hk⟩ := hta
        have hlt := r.weight_lt_of hk (List.mem_cons_self : t ∈ (TypeDefKind.type t).components)
        rw [typeIdEqualToType_type hk, Resolve.shape_type r hk]
        exact ihTypes t b (by omega)
      · have hna : ∀ t, r.types a ≠ .type t := fun t h => hta ⟨t, h⟩
        rw [typeIdEqualToType_of_ne hna]
        cases b with
        | id b => exact ihIds a b (by omega)
        | _ =>
          have hne := r.shape_ne_of_ne hna
          exact Decides.pure (by simp [hne])
    · cases a <;> cases b
      · exact Decides.pure (by simp)
      · exact Decides.pure (by simp)
      · exact Decides.pure (by simp)
      · next t s =>
          have hle : 4 * (r.weight t + r.weight s) + 4 ≤ n + 1 := hn
          exact (ihTypes t s (by omega)).congr (by simp)

end WitBindgen
