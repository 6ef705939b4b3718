import WitBindgen.Types.Usage
import WitBindgen.Types.Classes
import Mathlib.Data.List.Basic

/-!
# The flags of a type

`collect_equal_types` ends by merging the records of each class, in two passes over the table.
So the flags of a definition are about its structure and its use, and after the merge about
those of all definitions it may stand for.

The error of a result is looked for behind the aliases of the error type, but not behind those
of the result.
-/

namespace WitBindgen.Types

/-! ## Merging -/

/-- The first pass over the entries of the table, in the order of the hash map. -/
def mergeInfos : List (TypeId × TypeInfo) → Infos → TypesM Infos
  | [], merged => pure merged
  | (id, info) :: entries, merged => do
      let rep ← find id
      mergeInfos entries (Function.update merged rep (some (((merged rep).getD {}).or info)))

def spreadInfos (merged : Infos) : List (TypeId × TypeInfo) → Infos → TypesM Infos
  | [], infos => pure infos
  | (id, _) :: entries, infos => do
      let rep ← find id
      spreadInfos merged entries (match merged rep with
        | some info => Function.update infos id (some info)
        | none => infos)

/-- `collect_equal_types`. -/
def collectEqualInfos (r : Resolve) (live : List TypeId) (mayAlias : TypeId → Bool)
    (entries : List (TypeId × TypeInfo)) (infos : Infos) : TypesM Infos := do
  collectEqualTypes r live mayAlias
  let merged ← mergeInfos entries fun _ => none
  spreadInfos merged entries infos

/-! ## What merging does -/

section

variable {u : UnionFind TypeId}

theorem mergeInfos_run (entries : List (TypeId × TypeInfo)) (merged : Infos) :
    ∃ merged' u', mergeInfos entries merged u = some (merged', u') ∧ u'.root = u.root ∧
      ∀ rep, (∀ flag ∈ TypeInfo.flags, (merged' rep).any flag = true ↔
          (merged rep).any flag = true ∨ ∃ entry ∈ entries, u.root entry.1 = rep ∧ flag entry.2 = true) ∧
        ((merged' rep).isSome = true ↔ (merged rep).isSome = true ∨ ∃ entry ∈ entries, u.root entry.1 = rep) := by
  induction entries generalizing merged u with
  | nil => exact ⟨merged, u, rfl, rfl, fun rep => by simp⟩
  | cons entry entries ih =>
    obtain ⟨id, info⟩ := entry
    have hroot : (u.find id).1.2.root = u.root := funext (u.root_find id)
    obtain ⟨merged', u', hrun, hroots, hmerged⟩ :=
      ih (Function.update merged (u.root id) (some (((merged (u.root id)).getD {}).or info))) (u := (u.find id).1.2)
    refine ⟨merged', u', hrun, hroots.trans hroot, fun rep => ⟨fun flag hflag => ?_, ?_⟩⟩
    · rw [(hmerged rep).1 flag hflag, hroot]
      by_cases hrep : rep = u.root id
      · subst hrep
        rw [Function.update_self]
        have hgetD : flag ((merged (u.root id)).getD {}) = (merged (u.root id)).any flag := by
          cases merged (u.root id) with
          | none => exact flag_none hflag
          | some _ => rfl
        simp [flag_or _ _ hflag, hgetD, or_assoc]
      · rw [Function.update_of_ne hrep]
        simp [Ne.symm hrep]
    · rw [(hmerged rep).2, hroot]
      by_cases hrep : rep = u.root id
      · subst hrep
        simp
      · rw [Function.update_of_ne hrep]
        simp [Ne.symm hrep]

theorem spreadInfos_run {merged : Infos} (entries : List (TypeId × TypeInfo)) (infos : Infos)
    (h : ∀ entry ∈ entries, (merged (u.root entry.1)).isSome = true) :
    ∃ infos' u', spreadInfos merged entries infos u = some (infos', u') ∧ u'.root = u.root ∧
      ∀ i, ((∃ info, (i, info) ∈ entries) → infos' i = merged (u.root i)) ∧
        ((∀ info, (i, info) ∉ entries) → infos' i = infos i) := by
  induction entries generalizing infos u with
  | nil => exact ⟨infos, u, rfl, rfl, fun i => by simp⟩
  | cons entry entries ih =>
    obtain ⟨id, info⟩ := entry
    have hroot : (u.find id).1.2.root = u.root := funext (u.root_find id)
    obtain ⟨whole, hwhole⟩ := Option.isSome_iff_exists.mp (h (id, info) List.mem_cons_self)
    obtain ⟨infos', u', hrun, hroots, hinfos⟩ := ih (Function.update infos id (some whole)) (u := (u.find id).1.2)
      (fun entry hentry => by rw [hroot]; exact h entry (List.mem_cons_of_mem _ hentry))
    refine ⟨infos', u', ?_, hroots.trans hroot, fun i => ?_⟩
    · show spreadInfos merged entries (match merged (u.root id) with | some info => _ | none => _) _ = _
      rw [hwhole]
      exact hrun
    · obtain ⟨hlisted, hother⟩ := hinfos i
      rw [hroot] at hlisted
      by_cases hrest : ∃ info, (i, info) ∈ entries
      · refine ⟨fun _ => hlisted hrest, fun hnot => ?_⟩
        obtain ⟨info, hinfo⟩ := hrest
        exact absurd (List.mem_cons_of_mem _ hinfo) (hnot info)
      · have hlast := hother (not_exists.mp hrest)
        constructor
        · rintro ⟨info', hinfo'⟩
          obtain ⟨rfl, -⟩ := Prod.mk.inj ((List.mem_cons.mp hinfo').resolve_right fun h => hrest ⟨_, h⟩)
          rw [hlast, Function.update_self]
          exact hwhole.symm
        · intro hnot
          have hne : i ≠ id := by
            rintro rfl
            exact hnot info List.mem_cons_self
          rw [hlast, Function.update_of_ne hne]

/-- The record has the flags of all the members. -/
def IsUnion (infos : Infos) (member : TypeId → Prop) (info : TypeInfo) : Prop :=
  ∀ flag ∈ TypeInfo.flags, flag info = true ↔ ∃ i other, member i ∧ infos i = some other ∧ flag other = true

theorem collectEqualInfos_run (r : Resolve) {live : List TypeId} (hlive : live.Nodup) (mayAlias : TypeId → Bool)
    {entries : List (TypeId × TypeInfo)} {infos : Infos}
    (hentries : ∀ i info, (i, info) ∈ entries ↔ infos i = some info) :
    ∃ infos' u, collectEqualInfos r live mayAlias entries infos UnionFind.empty = some (infos', u) ∧
      ∀ i info, infos i = some info → ∃ whole, infos' i = some whole ∧ IsUnion infos (fun j => u.Same j i) whole := by
  obtain ⟨u, hcollect, -⟩ := collectEqualTypes_run r mayAlias live hlive
  obtain ⟨merged, u₁, hmerge, hroots₁, hmerged⟩ := mergeInfos_run (u := u) entries fun _ => none
  have hsome : ∀ entry ∈ entries, (merged (u₁.root entry.1)).isSome = true := fun entry hentry =>
    (hmerged _).2.mpr (Or.inr ⟨entry, hentry, by rw [hroots₁]⟩)
  obtain ⟨infos', u₂, hspread, hroots₂, hinfos⟩ := spreadInfos_run entries infos hsome
  refine ⟨infos', u₂, ?_, fun i info hi => ?_⟩
  · show (collectEqualTypes r live mayAlias _).bind _ = _
    rw [hcollect]
    show (mergeInfos entries _ u).bind _ = _
    rw [hmerge]
    exact hspread
  · have hmem : (i, info) ∈ entries := (hentries i info).mpr hi
    obtain ⟨whole, hwhole⟩ := Option.isSome_iff_exists.mp (hsome _ hmem)
    refine ⟨whole, ?_, fun flag hflag => ?_⟩
    · rw [(hinfos i).1 ⟨info, hmem⟩]
      exact hwhole
    · have hany := (hmerged (u₁.root i)).1 flag hflag
      rw [hwhole] at hany
      refine hany.trans ?_
      simp only [Option.any_none, Bool.false_eq_true, false_or]
      constructor
      · rintro ⟨⟨j, other⟩, hentry, hroot, hother⟩
        refine ⟨j, other, ?_, (hentries j other).mp hentry, hother⟩
        show u₂.root j = u₂.root i
        rw [hroots₂]
        exact (congrFun hroots₁ j).trans hroot
      · rintro ⟨j, other, hsame, hj, hother⟩
        refine ⟨(j, other), (hentries j other).mpr hj, ?_, hother⟩
        have hsame : u₂.root j = u₂.root i := hsame
        rw [hroots₂] at hsame
        exact (congrFun hroots₁ j).symm.trans hsame

end

/-! ## The types below some types -/

/-- The definitions a type comes to, those of its components first. -/
def belowTo (r : Resolve) : Nat → TypeRef → List TypeId
  | n + 1, .id i => (r.types i).components.flatMap (belowTo r n) ++ [i]
  | _, _ => []

theorem mem_belowTo {r : Resolve} {n : Nat} {t : TypeRef} {i : TypeId} (hn : r.weight t ≤ n) :
    i ∈ belowTo r n t ↔ r.Leads t i := by
  induction n generalizing t with
  | zero =>
    cases t with
    | id j => exact absurd hn (Nat.not_succ_le_zero _)
    | _ => exact ⟨nofun, nofun⟩
  | succ n ih =>
    cases t with
    | id j =>
      rw [belowTo, List.mem_append, List.mem_flatMap, List.mem_singleton]
      constructor
      · rintro (⟨t, ht, hi⟩ | rfl)
        · have hlt := r.weight_lt ht
          exact .component ht ((ih (by omega)).mp hi)
        · exact .self i
      · intro h
        cases h with
        | self => exact Or.inr rfl
        | component ht h =>
          have hlt := r.weight_lt ht
          exact Or.inl ⟨_, ht, (ih (by omega)).mpr h⟩
    | _ => exact ⟨nofun, nofun⟩

/-- One list for all walks. -/
def Live.walk (r : Resolve) : Live r where
  ids types := (types.flatMap fun t => belowTo r (r.weight t) t).eraseDups
  mem_ids types i := by
    rw [List.mem_eraseDups, List.mem_flatMap]
    exact exists_congr fun t => and_congr_right fun _ => mem_belowTo (Nat.le_refl _)

/-! ## Exactness -/

/-- After the analysis all flags are right, where a future or a stream is an owned handle and an
error context is a resource; after the merge each record is the union of those of its class. -/
theorem flags_exact (P : Source) (L : Live P.toResolve) :
    ∃ infos, P.analyze L (fun _ => none) = some ((), infos) ∧
      (∀ i ∈ P.arena, ∃ info, infos i = some info ∧ Exact P i info) ∧
      ∀ (live : List TypeId) (mayAlias : TypeId → Bool) (entries : List (TypeId × TypeInfo)), live.Nodup →
        (∀ i info, (i, info) ∈ entries ↔ infos i = some info) →
        ∃ infos' u, collectEqualInfos P.toResolve live mayAlias entries infos UnionFind.empty = some (infos', u) ∧
          ∀ i ∈ P.arena, ∃ whole, infos' i = some whole ∧ IsUnion infos (fun j => u.Same j i) whole := by
  obtain ⟨s, hsound, hfull, hrun⟩ := analyze_run P L
  have hinfos : ∀ i ∈ P.arena, ∃ info, (s i).map (fun info => info.or (P.uses L i)) = some info ∧ Exact P i info := by
    intro i hi
    obtain ⟨info, hinfo⟩ := hfull i hi
    exact ⟨info.or (P.uses L i), by rw [hinfo]; rfl, exact_of_uses (hsound i info hinfo)⟩
  refine ⟨_, hrun, hinfos, fun live mayAlias entries hlive hentries => ?_⟩
  obtain ⟨infos', u, hcollect, hunion⟩ := collectEqualInfos_run P.toResolve hlive mayAlias hentries
  refine ⟨infos', u, hcollect, fun i hi => ?_⟩
  obtain ⟨info, hinfo, -⟩ := hinfos i hi
  exact hunion i info hinfo

/-- Two records of one structure, one in the parameters of an import and one in those of an
export. -/
def twinRecords : Source where
  types
    | 0 | 1 => .record [("x", .prim .u32)]
    | _ => .resource
  rank _ := 0
  rank_lt i j h := by
    match i with
    | 0 | 1 | _ + 2 => simp [TypeDefKind.components] at h
  known i := by
    match i with
    | 0 | 1 | _ + 2 => simp
  arena := [0, 1]
  named _ := true
  interfaces _ := []
  worlds := [⟨[.function ⟨[("a", .id 0)], none⟩], [.function ⟨[("b", .id 1)], none⟩]⟩]
  closed i hi j hj := by
    match i with
    | 0 | 1 | _ + 2 => simp [TypeDefKind.components] at hj
  funcs_closed := by
    intro w hw item hitem func hfunc j hj
    obtain rfl := List.mem_singleton.mp hw
    simp only [List.cons_append, List.nil_append, List.mem_cons, List.not_mem_nil, or_false] at hitem
    rcases hitem with rfl | rfl <;> obtain rfl := List.mem_singleton.mp hfunc <;>
      obtain rfl := TypeRef.id.inj (List.mem_singleton.mp hj) <;> decide

/-- Merging the records of the two. -/
theorem flags_exact_twins : ∃ infos infos' u whole,
    twinRecords.analyze (Live.walk _) (fun _ => none) = some ((), infos) ∧
    collectEqualInfos twinRecords.toResolve [0, 1] (fun _ => true)
      [(0, { borrowed := true }), (1, { owned := true })] infos UnionFind.empty = some (infos', u) ∧
    infos' 0 = some whole ∧ IsUnion infos (fun j => u.Same j 0) whole := by
  obtain ⟨infos, hrun, -, hmerge⟩ := flags_exact twinRecords (Live.walk _)
  have hinfos : infos = Function.update (Function.update (fun _ => none) 0 (some { borrowed := true })) 1
      (some { owned := true }) := by
    have hanalyze : (twinRecords.analyze (Live.walk _) (fun _ => none)).map (·.2) = some infos := by
      rw [hrun]; rfl
    refine (Option.some.inj hanalyze).symm.trans ?_
    funext i
    match i with
    | 0 | 1 | _ + 2 => rfl
  obtain ⟨infos', u, hcollect, hunion⟩ := hmerge [0, 1] (fun _ => true)
    [(0, { borrowed := true }), (1, { owned := true })] (by decide) (by
      intro i info
      subst hinfos
      match i with
      | 0 => simp [Function.update, eq_comm]
      | 1 => simp [Function.update, eq_comm]
      | _ + 2 => simp [Function.update])
  obtain ⟨whole, hwhole, hall⟩ := hunion 0 (by decide)
  exact ⟨infos, infos', u, whole, hrun, hcollect, hwhole, hall⟩

/-- A future. -/
def futureSource : Source where
  types
    | 0 => .future (some (.prim .u8))
    | _ => .resource
  rank i := i
  rank_lt
    | 0, _, h => by simp [TypeDefKind.components] at h
    | _ + 1, _, h => by simp [TypeDefKind.components] at h
  known
    | 0 => nofun
    | _ + 1 => nofun
  arena := [0]
  named _ := false
  interfaces _ := []
  worlds := []
  closed i hi j hj := by
    obtain rfl := List.mem_singleton.mp hi
    simp [TypeDefKind.components] at hj
  funcs_closed := nofun

/-- It has an own handle for the generators though there is no `own` in its structure. -/
theorem future_owned : ∃ infos info, futureSource.analyze (Live.walk _) (fun _ => none) = some ((), infos) ∧
    infos 0 = some info ∧ info.hasOwnHandle = true ∧
    ¬futureSource.Holds (fun t => ∃ i resource, t = .id i ∧ futureSource.types i = .handle (.own resource)) (.id 0) := by
  refine ⟨_, _, rfl, rfl, rfl, fun h => ?_⟩
  cases h with
  | self h =>
    obtain ⟨i, resource, hi, hkind⟩ := h
    obtain rfl := TypeRef.id.inj hi
    exact nomatch hkind
  | part ht => exact absurd ht List.not_mem_nil

/-! ## Errors -/

end WitBindgen.Types

namespace WitBindgen.Resolve

variable (r : Resolve)

/-- A chain of aliases ends in a definition. -/
inductive Alias : TypeId → TypeId → Prop
  | here {i : TypeId} (h : ∀ j, r.types i ≠ .type (.id j)) : Alias i i
  | step {i j k : TypeId} (h : r.types i = .type (.id j)) (hj : Alias j k) : Alias i k

end WitBindgen.Resolve

namespace WitBindgen.Types

theorem alias_definitionTo {r : Resolve} {n : Nat} {i : TypeId} (hn : r.rank i ≤ n) :
    r.Alias i (definitionTo r n i) := by
  induction n generalizing i with
  | zero =>
    refine .here fun j hj => ?_
    have hlt := r.rank_lt i j (by rw [hj]; exact List.mem_singleton_self _)
    omega
  | succ n ih =>
    rw [definitionTo]
    split
    · next j hj =>
      have hlt := r.rank_lt i j (by rw [hj]; exact List.mem_singleton_self _)
      exact .step hj (ih (by omega))
    · next h => exact .here h

theorem Alias.unique {r : Resolve} {i j k : TypeId} (hj : r.Alias i j) (hk : r.Alias i k) : j = k := by
  induction hj with
  | here h =>
    cases hk with
    | here => rfl
    | step h' => exact absurd h' (h _)
  | step h _ ih =>
    cases hk with
    | here h' => exact absurd h (h' _)
    | step h' hk =>
      obtain rfl : _ = _ := TypeRef.id.inj (TypeDefKind.type.inj (h.symm.trans h'))
      exact ih hk

theorem resolveTypeDefinitionId_eq {r : Resolve} {i j : TypeId} : resolveTypeDefinitionId r i = j ↔ r.Alias i j := by
  have hdefinition : r.Alias i (resolveTypeDefinitionId r i) := alias_definitionTo (Nat.le_refl _)
  constructor
  · rintro rfl
    exact hdefinition
  · exact Alias.unique hdefinition

namespace Source

variable (P : Source)

/-- A function, imported or exported, whose result is written as a result with this error. -/
def DirectError (i : TypeId) : Prop := ∃ func ∈ P.imported ++ P.exported, ∃ id ok err,
  func.result = some (.id id) ∧ P.types id = .result ok (some (.id err)) ∧ P.Alias err i

/-- The same behind aliases of the result. -/
def AliasedError (i : TypeId) : Prop := ∃ func ∈ P.imported ++ P.exported, ∃ id target res ok err,
  func.result = some (.id id) ∧ P.types id = .type (.id target) ∧ P.Alias target res ∧
    P.types res = .result ok (some (.id err)) ∧ P.Alias err i

/-- What `TypeInfo::error` is to say. -/
def IsError (i : TypeId) : Prop := ∃ func ∈ P.imported ++ P.exported, ∃ id res ok err,
  func.result = some (.id id) ∧ P.Alias id res ∧ P.types res = .result ok (some (.id err)) ∧ P.Alias err i

theorem isError_iff {i : TypeId} : P.IsError i ↔ P.DirectError i ∨ P.AliasedError i := by
  constructor
  · rintro ⟨func, hfunc, id, res, ok, err, hresult, halias, hres, herr⟩
    cases halias with
    | here => exact Or.inl ⟨func, hfunc, id, ok, err, hresult, hres, herr⟩
    | step h halias => exact Or.inr ⟨func, hfunc, id, _, res, ok, err, hresult, h, halias, hres, herr⟩
  · rintro (⟨func, hfunc, id, ok, err, hresult, hres, herr⟩ |
      ⟨func, hfunc, id, target, res, ok, err, hresult, h, halias, hres, herr⟩)
    · refine ⟨func, hfunc, id, id, ok, err, hresult, .here fun j hj => ?_, hres, herr⟩
      exact nomatch hres.symm.trans hj
    · exact ⟨func, hfunc, id, res, ok, err, hresult, .step h halias, hres, herr⟩

variable {P}

theorem errorDefinition_iff {t : TypeRef} {i : TypeId} : errorDefinition P.toResolve t = some i ↔
    ∃ id ok err, t = .id id ∧ P.types id = .result ok (some (.id err)) ∧ P.Alias err i := by
  unfold errorDefinition
  constructor
  · intro h
    split at h
    · next id =>
      split at h
      · next ok err hres => exact ⟨id, ok, err, rfl, hres, resolveTypeDefinitionId_eq.mp (Option.some.inj h)⟩
      · cases h
    · cases h
  · rintro ⟨id, ok, err, rfl, hres, herr⟩
    simp only [hres]
    exact congrArg some (resolveTypeDefinitionId_eq.mpr herr)

theorem error_iff {L : Live P.toResolve} {i : TypeId} {info : TypeInfo} (h : info.error = false) :
    (info.or (P.uses L i)).error = true ↔ P.DirectError i := by
  have huse : (info.or (P.uses L i)).error = (P.uses L i).error := by
    show (info.error || _) = _
    rw [h, Bool.false_or]
  rw [huse, uses_flag (by simp [TypeInfo.flags])]
  simp only [useOf, decide_eq_true_eq, Option.bind_eq_some_iff, errorDefinition_iff, DirectError]
  constructor
  · rintro (⟨func, hfunc, _, hresult, id, ok, err, rfl, hres, herr⟩ |
      ⟨func, hfunc, _, hresult, id, ok, err, rfl, hres, herr⟩)
    · exact ⟨func, List.mem_append_left _ hfunc, id, ok, err, hresult, hres, herr⟩
    · exact ⟨func, List.mem_append_right _ hfunc, id, ok, err, hresult, hres, herr⟩
  · rintro ⟨func, hfunc, id, ok, err, hresult, hres, herr⟩
    rcases List.mem_append.mp hfunc with hfunc | hfunc
    · exact Or.inl ⟨func, hfunc, _, hresult, id, ok, err, rfl, hres, herr⟩
    · exact Or.inr ⟨func, hfunc, _, hresult, id, ok, err, rfl, hres, herr⟩

theorem alias_arena {i j : TypeId} (h : P.Alias i j) (hi : i ∈ P.arena) : j ∈ P.arena := by
  induction h with
  | here => exact hi
  | @step i j k h _ ih => exact ih (P.closed i hi j (by rw [h]; exact List.mem_singleton_self _))

theorem func_arena {func : Func} (hfunc : func ∈ P.imported ++ P.exported) {j : TypeId} (hj : .id j ∈ func.types) :
    j ∈ P.arena := by
  rcases List.mem_append.mp hfunc with hfunc | hfunc <;>
    obtain ⟨w, hw, hfunc⟩ := List.mem_flatMap.mp hfunc <;>
    obtain ⟨item, hitem, hfunc⟩ := List.mem_flatMap.mp hfunc
  · exact P.funcs_closed w hw item (List.mem_append_left _ hitem) func hfunc j hj
  · exact P.funcs_closed w hw item (List.mem_append_right _ hitem) func hfunc j hj

theorem aliasedError_arena {i : TypeId} (h : P.AliasedError i) : i ∈ P.arena := by
  obtain ⟨func, hfunc, id, target, res, ok, err, hresult, htarget, halias, hres, herr⟩ := h
  have hid : id ∈ P.arena :=
    func_arena hfunc (List.mem_append_right _ (Option.mem_toList.mpr hresult))
  have hres' : res ∈ P.arena := alias_arena (.step htarget halias) hid
  refine alias_arena herr (P.closed res hres' err ?_)
  rw [hres]
  exact List.mem_append_right _ (List.mem_singleton_self _)

/-- The flag marks the error types exactly where each error behind an alias of a result is also the
error of a result that is written out. -/
theorem error_exact_iff (P : Source) (L : Live P.toResolve) :
    ∃ infos, P.analyze L (fun _ => none) = some ((), infos) ∧
      ((∀ i ∈ P.arena, ∃ info, infos i = some info ∧ (info.error = true ↔ P.IsError i)) ↔
        ∀ i, P.AliasedError i → P.DirectError i) := by
  obtain ⟨s, hsound, hfull, hrun⟩ := analyze_run P L
  refine ⟨_, hrun, fun h i hi => ?_, fun h i hi => ?_⟩
  · have harena := aliasedError_arena hi
    obtain ⟨info, hinfo⟩ := hfull i harena
    obtain ⟨info', hinfo', herror⟩ := h i harena
    rw [hinfo] at hinfo'
    obtain rfl := Option.some.inj hinfo'
    exact (error_iff (hsound i info hinfo).unused.2.2).mp (herror.mpr (P.isError_iff.mpr (Or.inr hi)))
  · obtain ⟨info, hinfo⟩ := hfull i hi
    refine ⟨info.or (P.uses L i), by rw [hinfo]; rfl, ?_⟩
    rw [error_iff (hsound i info hinfo).unused.2.2, isError_iff]
    exact ⟨Or.inl, fun herror => herror.elim id (h i)⟩

end Source

/-- `record e { x: u8 }`, `type r = result<_, e>`, which is a result of that name, `type r2 = r`
and a function that gives an `r2`. -/
def aliasSource : Source where
  types
    | 0 => .record [("x", .prim .u8)]
    | 1 => .result none (some (.id 0))
    | 2 => .type (.id 1)
    | _ => .resource
  rank i := i
  rank_lt i j h := by
    match i with
    | 0 => simp [TypeDefKind.components] at h
    | 1 | 2 =>
      obtain rfl := by simpa [TypeDefKind.components] using h
      decide
    | _ + 3 => simp [TypeDefKind.components] at h
  known i := by
    match i with
    | 0 | 1 | 2 | _ + 3 => exact nofun
  arena := [0, 1, 2]
  named _ := true
  interfaces _ := []
  worlds := [⟨[.function ⟨[], some (.id 2)⟩], []⟩]
  closed i hi j hj := by
    simp only [List.mem_cons, List.not_mem_nil, or_false] at hi
    rcases hi with rfl | rfl | rfl
    · simp [TypeDefKind.components] at hj
    · obtain rfl := by simpa [TypeDefKind.components] using hj
      decide
    · obtain rfl := by simpa [TypeDefKind.components] using hj
      decide
  funcs_closed w hw item hitem func hfunc j hj := by
    obtain rfl := List.mem_singleton.mp hw
    obtain rfl := List.mem_singleton.mp hitem
    obtain rfl := List.mem_singleton.mp hfunc
    obtain rfl : j = 2 := by simpa [Func.types] using hj
    decide

/-- The record is not marked. -/
theorem error_missed : ∃ infos, aliasSource.analyze (Live.walk _) (fun _ => none) = some ((), infos) ∧
    ¬∀ i ∈ aliasSource.arena, ∃ info, infos i = some info ∧ (info.error = true ↔ aliasSource.IsError i) := by
  refine ⟨_, rfl, fun h => ?_⟩
  obtain ⟨info, hinfo, herror⟩ := h 0 (by decide)
  obtain rfl := Option.some.inj hinfo
  have hrecord : aliasSource.IsError 0 := by
    refine ⟨⟨[], some (.id 2)⟩, List.mem_singleton_self _, 2, 1, none, 0, rfl, ?_, rfl, ?_⟩
    · exact .step rfl (.here fun j => nofun)
    · exact .here fun j => nofun
  exact nomatch herror.mpr hrecord

end WitBindgen.Types
