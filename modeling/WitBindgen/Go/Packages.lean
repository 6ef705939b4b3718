import WitBindgen.Wit.Resolve
import WitBindgen.Abi.Generator
import WitBindgen.Library.Outcome

/-!
# In which Go package a type is

A type from which a resource of the component itself can be reached is declared in the
`export_` package of its interface, every other one in the plain package. The generator
asks `has_exported_resource` whenever it declares a type and whenever it refers to one,
so the two agree where that question has the same answer both times.

`any`, which answers it, looks at the error type of a result only if there is no ok type.
-/

namespace WitBindgen.Go.Packages

/-! ## Searching a type -/

/-- The types that `any` goes on to, in order. It stops with `todo!` at the others. -/
def examined : TypeDefKind → Option (List TypeRef)
  | .flags _ | .enum _ | .resource => some []
  | .handle h => some [.id h.resource]
  | .record fields => some (fields.map (·.2))
  | .variant cases => some (cases.filterMap (·.2))
  | .option t | .list t | .type t => some [t]
  | .result (some ok) _ => some [ok]
  | .result none err => some err.toList
  | .tuple types => some types
  | .future t | .stream t => some t.toList
  | .map key value => some [key, value]
  | .fixedLengthList _ _ | .unknown => none

theorem examined_subset {k : TypeDefKind} {ts : List TypeRef} (h : examined k = some ts) : ts ⊆ k.components := by
  intro t ht
  cases k with
  | variant cases =>
    obtain rfl := Option.some.inj h
    obtain ⟨c, hc, hct⟩ := List.mem_filterMap.mp ht
    exact List.mem_flatMap.mpr ⟨c, hc, Option.mem_toList.mpr hct⟩
  | result ok err =>
    cases ok with
    | none =>
      obtain rfl := Option.some.inj h
      exact ht
    | some ok =>
      obtain rfl := Option.some.inj h
      exact List.mem_append_left _ ht
  | fixedLengthList t n => exact nomatch h
  | unknown => exact nomatch h
  | _ =>
    obtain rfl := Option.some.inj h
    exact ht

def any (r : Resolve) (f : TypeRef → Except Panic Bool) (ty : TypeRef) : Except Panic Bool :=
  match f ty with
  | .error e => .error e
  | .ok true => .ok true
  | .ok false =>
    match ty with
    | .prim _ | .string => .ok false
    | .errorContext => .error .todo
    | .id i =>
      match _h : examined (r.types i) with
      | none => .error .todo
      | some ts => ts.attach.anyM fun t => any r f t.1
termination_by r.weight ty
decreasing_by exact r.weight_lt (examined_subset _h t.2)

section
variable {r : Resolve}

/-- One type occurs in another: in the fields, cases, elements, arms and payloads, through
aliases and handles. -/
inductive Occurs (r : Resolve) : TypeRef → TypeRef → Prop where
  | refl (t : TypeRef) : Occurs r t t
  | step {i : TypeId} {t u : TypeRef} (hfixed : ∀ e n, r.types i ≠ .fixedLengthList e n)
      (ht : t ∈ (r.types i).components) (h : Occurs r t u) : Occurs r (.id i) u

/-- It occurs outside of the error types of results that have an ok type. -/
inductive Met (r : Resolve) : TypeRef → TypeRef → Prop where
  | refl (t : TypeRef) : Met r t t
  | step {i : TypeId} {t u : TypeRef} (hfixed : ∀ e n, r.types i ≠ .fixedLengthList e n)
      (hresult : ∀ ok err, r.types i ≠ .result (some ok) err) (ht : t ∈ (r.types i).components)
      (h : Met r t u) : Met r (.id i) u
  | ok {i : TypeId} {ok u : TypeRef} {err : Option TypeRef} (hresult : r.types i = .result (some ok) err)
      (h : Met r ok u) : Met r (.id i) u

theorem Met.occurs {t u : TypeRef} (h : Met r t u) : Occurs r t u := by
  induction h with
  | refl t => exact .refl t
  | step hfixed _ ht _ ih => exact .step hfixed ht ih
  | ok hresult _ ih =>
    refine .step (fun e n hfixed => ?_) ?_ ih
    · rw [hresult] at hfixed
      exact nomatch hfixed
    · rw [hresult]
      exact List.mem_cons_self

theorem examined_components {k : TypeDefKind} (hresult : ∀ ok err, k ≠ .result (some ok) err)
    {ts : List TypeRef} (h : examined k = some ts) : ts = k.components := by
  cases k with
  | variant cases =>
    obtain rfl := Option.some.inj h
    show cases.filterMap (·.2) = cases.flatMap fun c => c.2.toList
    clear h hresult
    induction cases with
    | nil => rfl
    | cons c cases ih =>
      rw [List.filterMap_cons, List.flatMap_cons, ih]
      cases c.2 <;> rfl
  | result ok err =>
    cases ok with
    | none => exact (Option.some.inj h).symm
    | some ok => exact absurd rfl (hresult ok err)
  | fixedLengthList t n => exact nomatch h
  | unknown => exact nomatch h
  | _ => exact (Option.some.inj h).symm

/-- `any` goes on to what is met. -/
theorem Met.of_examined {i : TypeId} {t u : TypeRef} {ts : List TypeRef} (hts : examined (r.types i) = some ts)
    (ht : t ∈ ts) (h : Met r t u) : Met r (.id i) u := by
  by_cases hresult : ∃ ok err, r.types i = .result (some ok) err
  · obtain ⟨ok, err, hk⟩ := hresult
    rw [hk] at hts
    obtain rfl := Option.some.inj hts
    obtain rfl := List.mem_singleton.mp ht
    exact .ok hk h
  · have hplain : ∀ ok err, r.types i ≠ .result (some ok) err := fun ok err hk => hresult ⟨ok, err, hk⟩
    refine .step (fun e n hfixed => ?_) hplain (examined_components hplain hts ▸ ht) h
    rw [hfixed] at hts
    exact nomatch hts

/-- And to nothing else. -/
theorem mem_examined {i : TypeId} {t : TypeRef} {ts : List TypeRef} (hts : examined (r.types i) = some ts)
    (hresult : ∀ ok err, r.types i ≠ .result (some ok) err) (ht : t ∈ (r.types i).components) : t ∈ ts :=
  examined_components hresult hts ▸ ht

theorem anyM_ok_true {α : Type} {f : α → Except Panic Bool} {xs : List α} (h : xs.anyM f = .ok true) :
    ∃ x ∈ xs, f x = .ok true := by
  induction xs with
  | nil => exact nomatch h
  | cons x xs ih =>
    rw [List.anyM] at h
    cases hx : f x with
    | error e =>
      rw [hx] at h
      exact nomatch h
    | ok b =>
      rw [hx] at h
      cases b with
      | true => exact ⟨x, List.mem_cons_self, hx⟩
      | false =>
        obtain ⟨y, hy, hfy⟩ := ih h
        exact ⟨y, List.mem_cons_of_mem _ hy, hfy⟩

theorem anyM_ok_false {α : Type} {f : α → Except Panic Bool} {xs : List α} (h : xs.anyM f = .ok false) :
    ∀ x ∈ xs, f x = .ok false := by
  induction xs with
  | nil => exact nofun
  | cons x xs ih =>
    rw [List.anyM] at h
    cases hx : f x with
    | error e =>
      rw [hx] at h
      exact nomatch h
    | ok b =>
      rw [hx] at h
      cases b with
      | true => exact nomatch h
      | false => exact List.forall_mem_cons.mpr ⟨hx, ih h⟩

theorem anyM_attach {α : Type} (f : α → Except Panic Bool) (xs : List α) :
    (xs.attach.anyM fun x => f x.1) = xs.anyM f := by
  have hval : ∀ ys : List { x // x ∈ xs }, (ys.anyM fun x => f x.1) = (ys.map (·.1)).anyM f := by
    intro ys
    induction ys with
    | nil => rfl
    | cons y ys ih => rw [List.anyM, List.map_cons, List.anyM, ih]
  rw [hval, List.attach_map_subtype_val]

theorem any_id {f : TypeRef → Except Panic Bool} {i : TypeId} {ts : List TypeRef} (hf : f (.id i) = .ok false)
    (hts : examined (r.types i) = some ts) : any r f (.id i) = ts.anyM (any r f) := by
  rw [any.eq_def, hf]
  dsimp only
  split
  · next hnone => exact nomatch hts.symm.trans hnone
  · next ts' hts' =>
    obtain rfl := Option.some.inj (hts.symm.trans hts')
    exact anyM_attach _ _

theorem any_ok_true {f : TypeRef → Except Panic Bool} {ty : TypeRef} (h : any r f ty = .ok true) :
    ∃ t, Met r ty t ∧ f t = .ok true := by
  induction ty using (measure r.weight).wf.induction with
  | _ ty ih =>
    rw [any.eq_def] at h
    split at h
    · exact nomatch h
    · next hf => exact ⟨ty, .refl ty, hf⟩
    · next hf =>
      split at h
      · exact nomatch h
      · exact nomatch h
      · exact nomatch h
      · next i =>
        split at h
        · exact nomatch h
        · next ts hts =>
          obtain ⟨⟨t, ht⟩, -, hany⟩ := anyM_ok_true h
          obtain ⟨u, hu, hfu⟩ := ih t (r.weight_lt (examined_subset hts ht)) hany
          exact ⟨u, .of_examined hts ht hu, hfu⟩

theorem any_examined_false {f : TypeRef → Except Panic Bool} {i : TypeId} (h : any r f (.id i) = .ok false) :
    ∃ ts, examined (r.types i) = some ts ∧ ∀ t ∈ ts, any r f t = .ok false := by
  rw [any.eq_def] at h
  split at h
  · exact nomatch h
  · exact nomatch h
  · simp only at h
    split at h
    · exact nomatch h
    · next ts hts => exact ⟨ts, hts, fun t ht => anyM_ok_false h ⟨t, ht⟩ (List.mem_attach ..)⟩

theorem any_ok_false {f : TypeRef → Except Panic Bool} {ty t : TypeRef} (h : any r f ty = .ok false)
    (ht : Met r ty t) : f t = .ok false := by
  induction ht with
  | refl ty =>
    rw [any.eq_def] at h
    split at h
    · exact nomatch h
    · exact nomatch h
    · next hf => exact hf
  | step _ hresult ht _ ih =>
    obtain ⟨ts, hts, hall⟩ := any_examined_false h
    exact ih (hall _ (mem_examined hts hresult ht))
  | ok hresult _ ih =>
    obtain ⟨ts, hts, hall⟩ := any_examined_false h
    rw [hresult] at hts
    obtain rfl := Option.some.inj hts
    exact ih (hall _ (List.mem_singleton_self _))

/-- What `any` answers, if it does not panic. -/
theorem any_spec {f : TypeRef → Except Panic Bool} {ty : TypeRef} {b : Bool} (h : any r f ty = .ok b) :
    b = true ↔ ∃ t, Met r ty t ∧ f t = .ok true := by
  cases b with
  | true => exact iff_of_true rfl (any_ok_true h)
  | false =>
    refine iff_of_false Bool.false_ne_true ?_
    rintro ⟨t, ht, hf⟩
    exact nomatch (any_ok_false h ht).symm.trans hf

end

/-! ## The generator -/

inductive Direction where
  | import_ | export_
deriving DecidableEq

abbrev InterfaceId := Nat

inductive WorldKey where
  | name (name : String)
  | interface (id : InterfaceId)
deriving DecidableEq

/-- `TypeOwner`. -/
inductive Owner where
  | world
  | interface (id : InterfaceId)
  | none
deriving DecidableEq

/-- A package of the generated module. The shims of exported functions are in `main`. -/
inductive GoPackage where
  | main
  | generated (exported : Bool) (name : String)
deriving DecidableEq

def GoPackage.exported : GoPackage → Bool
  | .main => false
  | .generated exported _ => exported

/-- A printed type definition, with the directions of the resources at that moment. -/
structure Declaration where
  file : GoPackage
  id : TypeId
  resources : TypeId → Option Direction

/-- A printed name of a type, and the package that the name resolves to. -/
structure Reference where
  package : GoPackage
  id : TypeId
  resources : TypeId → Option Direction

/-- The fields of `Go` that decide about packages, and what is printed. -/
structure GoState where
  interfaceNames : InterfaceId → Option WorldKey
  types : List (String × TypeId)
  resources : TypeId → Option Direction
  declared : List Declaration
  references : List Reference

def GoState.new : GoState := ⟨fun _ => none, [], fun _ => none, [], []⟩

/-- The world that is generated for. Nothing depends on how `go_package_name` spells names. -/
structure World where
  r : Resolve
  owner : TypeId → Owner
  goPackageName : Option WorldKey → String

namespace World

variable (W : World)

def hasExportedResource (resources : TypeId → Option Direction) (ty : TypeRef) : Except Panic Bool :=
  any W.r (fun
    | .id i => match W.r.types i with
      | .resource => match resources i with
        | some direction => .ok (direction = .export_)
        | none => .error .unwrap
      | _ => .ok false
    | _ => .ok false) ty

/-- The owner of a type, as `package` sees it. -/
def ownerOf (s : GoState) (id : TypeId) : Except Panic (Option WorldKey) :=
  match W.owner id with
  | .world => .ok none
  | .interface i => .ok (some ((s.interfaceNames i).getD (.interface i)))
  | .none => .error .unreachable

/-- Where code of a function or of a type is printed, for which interface, and whether as an
import. -/
structure Site where
  file : GoPackage
  local_ : Option WorldKey
  inImport : Bool

/-- `package` and `package_for_owner`: the package that the printed prefix stands for. -/
def package (s : GoState) (site : Site) (id : TypeId) : Except Panic Reference := do
  let owner ← W.ownerOf s id
  let exported ← W.hasExportedResource s.resources (.id id)
  if site.local_ = owner ∧ (exported ^^ site.inImport) = true then
    return ⟨site.file, id, s.resources⟩
  else return ⟨.generated exported (W.goPackageName owner), id, s.resources⟩

/-- The definitions that `type_name` prints the names of. -/
def named (ty : TypeRef) : Option (List TypeId) :=
  match ty with
  | .prim _ | .string => some []
  | .errorContext => none
  | .id i =>
    match _h : W.r.types i with
    | .record _ | .flags _ | .variant _ | .enum _ | .resource => some [i]
    | .tuple types => if types.length ≤ 16 then (types.attach.mapM fun t => named t.1).map List.flatten else none
    | .fixedLengthList _ _ | .unknown => none
    | k => (k.components.attach.mapM fun t => named t.1).map List.flatten
termination_by W.r.weight ty
decreasing_by
  · exact W.r.weight_lt_of _h t.2
  · exact W.r.weight_lt (_h ▸ t.2)

def typeName (s : GoState) (site : Site) (ty : TypeRef) : Except Panic (List Reference) :=
  match W.named ty with
  | some ids => ids.mapM (W.package s site)
  | none => .error .todo

/-- `InterfaceGenerator::type_name`, for a type whose definition is printed. -/
def componentName (s : GoState) (file : GoPackage) (local_ : Option WorldKey) (inImport : Bool) (ty : TypeRef) :
    Except Panic (List Reference) :=
  if inImport then W.typeName s ⟨file, local_, true⟩ ty
  else do
    let exported ← W.hasExportedResource s.resources ty
    W.typeName s ⟨file, local_, !exported⟩ ty

/-- The types that the definition of `id` names: a variant names its payloads in the accessors and
in the constructors. -/
def namedTypes (id : TypeId) : TypeDefKind → Option (List TypeRef)
  | .resource | .flags _ | .enum _ => some []
  | .record fields => some (fields.map (·.2))
  | .tuple types => some types
  | .variant cases => some (cases.filterMap (·.2) ++ cases.filterMap (·.2))
  | .option t | .list t | .fixedLengthList t _ | .type t => some [t]
  | .result ok err => some (ok.toList ++ err.toList)
  | .map key value => some [key, value]
  | .future _ | .stream _ => some [.id id]
  | .handle _ | .unknown => none

/-- `define_type`. -/
def defineType (s : GoState) (file : GoPackage) (local_ : Option WorldKey) (inImport : Bool) (id : TypeId) :
    Except Panic GoState :=
  if W.r.types id = .resource then
    let resources := Function.update s.resources id (some (if inImport then .import_ else .export_))
    .ok { s with resources, declared := s.declared ++ [⟨file, id, resources⟩] }
  else
    match namedTypes id (W.r.types id) with
    | some types => do
        let references ← types.mapM (W.componentName s file local_ inImport)
        return { s with
          declared := s.declared ++ [⟨file, id, s.resources⟩]
          references := s.references ++ references.flatten }
    | none => .error .unreachable

/-! ## Steps -/

/-- What the functions of `WorldGenerator` do, one type at a time. -/
inductive Step where
  | enter (key : WorldKey) (id : InterfaceId)
  | importType (key : Option WorldKey) (id : TypeId)
  | exportType (key : WorldKey) (id : TypeId)
  | importFunction (key : Option WorldKey) (ty : TypeRef)
  | exportFunction (ty : TypeRef)
  | stub (key : Option WorldKey) (ty : TypeRef)
  | payload (key : Option WorldKey) (inImport : Bool) (payload ty : TypeRef)
deriving DecidableEq

def importSite (key : Option WorldKey) : Site := ⟨.generated false (W.goPackageName key), key, true⟩

def exportSite : Site := ⟨.main, none, false⟩

/-- Stubs, and the payloads of exported functions that reach an exported resource. -/
def stubSite (key : Option WorldKey) : Site := ⟨.generated true (W.goPackageName key), key, false⟩

def print (s : GoState) (site : Site) (ty : TypeRef) : Except Panic GoState := do
  let references ← W.typeName s site ty
  return { s with references := s.references ++ references }

def step (s : GoState) : Step → Except Panic GoState
  | Step.enter key id => .ok { s with interfaceNames := Function.update s.interfaceNames id (some key) }
  | Step.importType key id =>
    let name := W.goPackageName key
    if (name, id) ∈ s.types then .ok s
    else W.defineType { s with types := (name, id) :: s.types } (.generated false name) key true id
  | Step.exportType key id => do
      let name := W.goPackageName (some key)
      let exported ←
        if W.r.types id = .resource then pure true else W.hasExportedResource s.resources (.id id)
      if (name, id) ∉ s.types ∨ exported = true then
        W.defineType { s with types := (name, id) :: s.types } (.generated exported name) (some key) false id
      else return s
  | .importFunction key ty => W.print s (W.importSite key) ty
  | .exportFunction ty => W.print s exportSite ty
  | .stub key ty => W.print s (W.stubSite key) ty
  | .payload key inImport payload ty => do
      let exported ← W.hasExportedResource s.resources payload
      W.print s (if inImport || !exported then W.importSite key else W.stubSite key) ty

/-- A function, as far as types are named for it: in its signature, in the code that lifts and
lowers its values, and in the declarations of its futures and streams. -/
structure Func where
  params : List TypeRef
  result : Option TypeRef
  body : List TypeRef
  payloads : List (TypeRef × List TypeRef)

/-- `visit_futures_and_streams`. -/
def visitFuturesAndStreams (inImport : Bool) (key : Option WorldKey) (f : Func) : List Step :=
  f.payloads.flatMap fun (payload, body) => (payload :: body).map (.payload key inImport payload)

/-- `func_results` names the types of a tuple one by one. -/
def funcResults (f : Func) : List TypeRef :=
  match f.result with
  | some (.id i) => match W.r.types i with
    | .tuple types => types
    | _ => [.id i]
  | some ty => [ty]
  | none => []

def import_ (key : Option WorldKey) (f : Func) : List Step :=
  visitFuturesAndStreams true key f ++ (f.params ++ W.funcResults f ++ f.body).map (.importFunction key)

def export_ (generateStubs : Bool) (key : Option WorldKey) (f : Func) : List Step :=
  visitFuturesAndStreams false key f ++ f.body.map .exportFunction ++
    if generateStubs then (f.params ++ W.funcResults f).map (.stub key) else []

def importInterface (key : WorldKey) (id : InterfaceId) (types : List TypeId) (functions : List Func) : List Step :=
  Step.enter key id :: types.map (Step.importType (some key)) ++ functions.flatMap (W.import_ (some key))

def importTypes (types : List TypeId) : List Step := types.map (Step.importType none)

def importFuncs (functions : List Func) : List Step := functions.flatMap (W.import_ none)

def exportInterface (generateStubs : Bool) (key : WorldKey) (id : InterfaceId) (types : List TypeId)
    (functions : List Func) : List Step :=
  Step.enter key id :: types.map (Step.exportType key) ++ functions.flatMap (W.export_ generateStubs (some key))

def exportFuncs (generateStubs : Bool) (functions : List Func) : List Step :=
  functions.flatMap (W.export_ generateStubs none)

/-! ## Reaching an exported resource -/

/-- An exported resource occurs in the type. -/
def ReachesExported (resources : TypeId → Option Direction) (ty : TypeRef) : Prop :=
  ∃ i, Occurs W.r ty (.id i) ∧ W.r.types i = .resource ∧ resources i = some .export_

/-- One occurs that `any` meets: not only in the error type of results with an ok type. -/
def MeetsExported (resources : TypeId → Option Direction) (ty : TypeRef) : Prop :=
  ∃ i, Met W.r ty (.id i) ∧ W.r.types i = .resource ∧ resources i = some .export_

/-- `any` does not miss the exported resources of the type. -/
def Searched (resources : TypeId → Option Direction) (ty : TypeRef) : Prop :=
  W.ReachesExported resources ty → W.MeetsExported resources ty

variable {W} {s s' : GoState} {resources : TypeId → Option Direction}

theorem hasExportedResource_spec {ty : TypeRef} {b : Bool} (h : W.hasExportedResource resources ty = .ok b) :
    b = true ↔ W.MeetsExported resources ty := by
  rw [any_spec h]
  constructor
  · rintro ⟨t, ht, hf⟩
    split at hf
    · next i =>
      split at hf
      · next hi =>
        split at hf
        · next direction hdir =>
          have hexport : direction = .export_ := of_decide_eq_true (Except.ok.inj hf)
          exact ⟨i, ht, hi, hexport ▸ hdir⟩
        · cases hf
      · cases hf
    · cases hf
  · rintro ⟨i, hmet, hi, hdir⟩
    refine ⟨.id i, hmet, ?_⟩
    simp only [hi, hdir]
    rfl

theorem hasExportedResource_exact {ty : TypeRef} {b : Bool} (h : W.hasExportedResource resources ty = .ok b)
    (hs : W.Searched resources ty) : b = true ↔ W.ReachesExported resources ty := by
  rw [hasExportedResource_spec h]
  exact ⟨fun ⟨i, hmet, hi⟩ => ⟨i, hmet.occurs, hi⟩, hs⟩

theorem occurs_resource {i : TypeId} (hi : W.r.types i = .resource) {t : TypeRef} (h : Occurs W.r (.id i) t) :
    t = .id i := by
  cases h with
  | refl _ => rfl
  | step _ ht _ =>
    rw [hi] at ht
    exact absurd ht List.not_mem_nil

theorem reachesExported_resource {i : TypeId} (hi : W.r.types i = .resource) :
    W.ReachesExported resources (.id i) ↔ resources i = some .export_ := by
  constructor
  · rintro ⟨j, hj, -, hdir⟩
    obtain rfl : j = i := by simpa using occurs_resource hi hj
    exact hdir
  · exact fun hdir => ⟨i, .refl _, hi, hdir⟩

/-! ## Runs -/

/-- A definition is in the `export_` package exactly if an exported resource occurs in its type. -/
def Placed (W : World) (d : Declaration) : Prop :=
  d.file.exported = true ↔ W.ReachesExported d.resources (.id d.id)

/-- A name resolves to a package in which the type is declared, the `export_` package exactly if
an exported resource occurs in the type. -/
def Resolves (W : World) (declared : List Declaration) (x : Reference) : Prop :=
  (x.package.exported = true ↔ W.ReachesExported x.resources (.id x.id)) ∧
    ∃ d ∈ declared, d.file = x.package ∧ d.id = x.id

structure Correct (W : World) (s : GoState) : Prop where
  placed : ∀ d ∈ s.declared, Placed W d
  resolves : ∀ x ∈ s.references, Resolves W s.declared x

variable (W) in
def Names (ty : TypeRef) (id : TypeId) : Prop := ∃ ids, W.named ty = some ids ∧ id ∈ ids

variable (W) in
/-- The types of the owner of `id` have been gone through, and if an exported resource occurs in
`id`, then those of an exported interface. -/
def Known (before : List Step) (s : GoState) (id : TypeId) : Prop :=
  ∀ owner, W.ownerOf s id = .ok owner → (W.goPackageName owner, id) ∈ s.types ∧
    (W.ReachesExported s.resources (.id id) → ∃ key, owner = some key ∧ Step.exportType key id ∈ before)

variable (W) in
/-- The condition on a type that is named. -/
def Nameable (before : List Step) (s : GoState) (ty : TypeRef) : Prop :=
  ∀ id, W.Names ty id → W.Searched s.resources (.id id) ∧ W.Known before s id

variable (W) in
/-- The condition on a step, in the state before it. -/
def Fine (before : List Step) (s : GoState) : Step → Prop
  | Step.enter _ _ => True
  -- imports come before exports
  | Step.importType _ id => ¬W.ReachesExported s.resources (.id id) ∧
      ∀ types, namedTypes id (W.r.types id) = some types → ∀ ty ∈ types, W.Nameable before s ty
  | Step.exportType key id =>
    W.Searched s.resources (.id id) ∧
    -- interfaces are exported after those they use
    (W.r.types id = .resource → ∀ key' id', Step.exportType key' id' ∈ before →
      Occurs W.r (.id id') (.id id) → W.ReachesExported s.resources (.id id')) ∧
    ∀ types, namedTypes id (W.r.types id) = some types → ∀ ty ∈ types, W.Searched s.resources ty ∧
      W.Nameable before s ty ∧
      -- next to a component with an exported resource, the others name no type of the interface
      (W.ReachesExported s.resources (.id id) → ¬W.ReachesExported s.resources ty →
        ∀ j, W.Names ty j → W.ownerOf s j ≠ .ok (some key))
  | .importFunction _ ty | .exportFunction ty | .stub _ ty | .payload _ _ _ ty => W.Nameable before s ty

/-- Runs all of whose steps meet the condition. -/
inductive FineRun (W : World) : List Step → GoState → Prop where
  | new : FineRun W [] GoState.new
  | step {before : List Step} {s s' : GoState} {x : Step} (h : FineRun W before s) (hfine : W.Fine before s x)
      (hx : W.step s x = .ok s') : FineRun W (before ++ [x]) s'

/-- What a run keeps: types that were gone through are declared in the package that they belong
to. -/
structure Inv (W : World) (before : List Step) (s : GoState) : Prop where
  plain : ∀ name id, (name, id) ∈ s.types → ¬W.ReachesExported s.resources (.id id) →
    ∃ d ∈ s.declared, d.file = .generated false name ∧ d.id = id
  exported : ∀ key id, Step.exportType key id ∈ before → W.ReachesExported s.resources (.id id) →
    ∃ d ∈ s.declared, d.file = .generated true (W.goPackageName (some key)) ∧ d.id = id
  correct : Correct W s

variable {before : List Step}

theorem Resolves.mono {declared declared' : List Declaration} {x : Reference} (h : Resolves W declared x)
    (hsub : declared ⊆ declared') : Resolves W declared' x := by
  obtain ⟨hexported, d, hd, hfile⟩ := h
  exact ⟨hexported, d, hsub hd, hfile⟩

theorem Inv.declared {id : TypeId} {owner : Option WorldKey} {exported : Bool} (h : Inv W before s)
    (hknown : W.Known before s id) (howner : W.ownerOf s id = .ok owner)
    (hexported : exported = true ↔ W.ReachesExported s.resources (.id id)) :
    ∃ d ∈ s.declared, d.file = .generated exported (W.goPackageName owner) ∧ d.id = id := by
  obtain ⟨htypes, hkey⟩ := hknown owner howner
  cases exported with
  | false => exact h.plain _ id htypes fun hreach => nomatch hexported.mpr hreach
  | true =>
    obtain ⟨key, rfl, hbefore⟩ := hkey (hexported.mp rfl)
    exact h.exported key id hbefore (hexported.mp rfl)

/-! ### One name -/

/-- Where the prefix is left out, the file is the package of the type. -/
def Leads (W : World) (s : GoState) (site : Site) (id : TypeId) : Prop :=
  ∀ exported : Bool, (exported = true ↔ W.ReachesExported s.resources (.id id)) →
    W.ownerOf s id = .ok site.local_ → (exported ^^ site.inImport) = true →
      site.file = .generated exported (W.goPackageName site.local_)

theorem package_resolves {site : Site} {id : TypeId} {x : Reference} (h : Inv W before s)
    (hsearched : W.Searched s.resources (.id id)) (hknown : W.Known before s id) (hleads : Leads W s site id)
    (hx : W.package s site id = .ok x) : Resolves W s.declared x := by
  unfold package at hx
  cases howner : W.ownerOf s id with
  | error e =>
    rw [howner] at hx
    exact nomatch hx
  | ok owner =>
    cases hexp : W.hasExportedResource s.resources (.id id) with
    | error e =>
      rw [howner, hexp] at hx
      exact nomatch hx
    | ok exported =>
      have hreach := hasExportedResource_exact hexp hsearched
      have hdeclared := h.declared hknown howner hreach
      rw [howner, hexp] at hx
      by_cases hcase : site.local_ = owner ∧ (exported ^^ site.inImport) = true
      · have hx' : (⟨site.file, id, s.resources⟩ : Reference) = x := by
          simpa only [bind, Except.bind, if_pos hcase, pure, Except.pure, Except.ok.injEq] using hx
        obtain ⟨hlocal, himport⟩ := hcase
        have hfile := hleads exported hreach (hlocal ▸ howner) himport
        subst hx'
        refine ⟨?_, ?_⟩
        · show site.file.exported = true ↔ _
          rw [hfile]
          exact hreach
        · show ∃ d ∈ s.declared, d.file = site.file ∧ d.id = id
          rw [hfile, hlocal]
          exact hdeclared
      · have hx' : (⟨.generated exported (W.goPackageName owner), id, s.resources⟩ : Reference) = x := by
          simpa only [bind, Except.bind, if_neg hcase, pure, Except.pure, Except.ok.injEq] using hx
        subst hx'
        exact ⟨hreach, hdeclared⟩

theorem typeName_resolves {site : Site} {ty : TypeRef} {xs : List Reference} (h : Inv W before s)
    (hname : W.Nameable before s ty) (hleads : ∀ id, W.Names ty id → Leads W s site id)
    (hxs : W.typeName s site ty = .ok xs) : ∀ x ∈ xs, Resolves W s.declared x := by
  intro x hx
  unfold typeName at hxs
  split at hxs
  · next ids hids =>
    obtain ⟨id, hid, hpackage⟩ := mapM_ok_mem hxs hx
    obtain ⟨hsearched, hknown⟩ := hname id ⟨ids, hids, hid⟩
    exact package_resolves h hsearched hknown (hleads id ⟨ids, hids, hid⟩) hpackage
  · exact nomatch hxs

/-- In a package, as an import in the plain one and not as an import in the `export_` one. -/
theorem Leads.straight {site : Site} {id : TypeId}
    (hfile : site.file = .generated (!site.inImport) (W.goPackageName site.local_)) : Leads W s site id := by
  intro exported _ _ himport
  rw [hfile]
  cases exported <;> cases hin : site.inImport <;> simp_all

theorem Leads.main {id : TypeId} (hknown : W.Known before s id) : Leads W s exportSite id := by
  intro exported hreach howner himport
  have hexported : exported = true := by simpa [exportSite] using himport
  obtain ⟨key, hkey, -⟩ := (hknown none howner).2 (hreach.mp hexported)
  exact nomatch hkey

theorem componentName_resolves {file : GoPackage} {local_ : Option WorldKey} {inImport : Bool} {ty : TypeRef}
    {xs : List Reference} (h : Inv W before s) (hname : W.Nameable before s ty)
    (hplain : inImport = true ∨ ¬W.MeetsExported s.resources ty →
      ∀ id, W.Names ty id → Leads W s ⟨file, local_, true⟩ id)
    (hexported : inImport = false → W.MeetsExported s.resources ty →
      ∀ id, W.Names ty id → Leads W s ⟨file, local_, false⟩ id)
    (hxs : W.componentName s file local_ inImport ty = .ok xs) : ∀ x ∈ xs, Resolves W s.declared x := by
  unfold componentName at hxs
  cases inImport with
  | true => exact typeName_resolves h hname (hplain (Or.inl rfl)) hxs
  | false =>
    simp only [Bool.false_eq_true, if_false] at hxs
    cases hexp : W.hasExportedResource s.resources ty with
    | error e =>
      rw [hexp] at hxs
      exact nomatch hxs
    | ok exported =>
      rw [hexp] at hxs
      have hmeets := hasExportedResource_spec hexp
      cases exported with
      | true => exact typeName_resolves h hname (hexported rfl (hmeets.mp rfl)) hxs
      | false =>
        exact typeName_resolves h hname (hplain (Or.inr fun hm => nomatch hmeets.mpr hm)) hxs

/-! ### One definition -/

theorem reaches_of_namedTypes {id : TypeId} {types : List TypeRef} {ty : TypeRef}
    (hfixed : ∀ e n, W.r.types id ≠ .fixedLengthList e n) (h : namedTypes id (W.r.types id) = some types)
    (hty : ty ∈ types) (hreach : W.ReachesExported resources ty) : W.ReachesExported resources (.id id) := by
  obtain ⟨i, hi, hres⟩ := hreach
  refine ⟨i, ?_, hres⟩
  have hcomponent : ty ∈ (W.r.types id).components → Occurs W.r (.id id) (.id i) := fun hmem => .step hfixed hmem hi
  cases hk : W.r.types id with
  | variant cases =>
    rw [hk] at h
    obtain rfl := Option.some.inj h
    refine hcomponent ?_
    rw [hk]
    obtain hty | hty := List.mem_append.mp hty <;>
      · obtain ⟨c, hc, hct⟩ := List.mem_filterMap.mp hty
        exact List.mem_flatMap.mpr ⟨c, hc, Option.mem_toList.mpr hct⟩
  | future t =>
    rw [hk] at h
    obtain rfl := Option.some.inj h
    obtain rfl := List.mem_singleton.mp hty
    exact hi
  | stream t =>
    rw [hk] at h
    obtain rfl := Option.some.inj h
    obtain rfl := List.mem_singleton.mp hty
    exact hi
  | handle hd =>
    rw [hk] at h
    exact nomatch h
  | unknown =>
    rw [hk] at h
    exact nomatch h
  | fixedLengthList e n => exact absurd hk (hfixed e n)
  | _ =>
    rw [hk] at h
    obtain rfl := Option.some.inj h
    refine hcomponent ?_
    rw [hk]
    exact hty

/-- Printing the definition of a type that is not a resource. -/
theorem defineType_ok {file : GoPackage} {local_ : Option WorldKey} {inImport : Bool} {id : TypeId}
    (hk : W.r.types id ≠ .resource) (h : W.defineType s file local_ inImport id = .ok s') :
    ∃ types xs, namedTypes id (W.r.types id) = some types ∧
      s' = { s with
        declared := s.declared ++ [⟨file, id, s.resources⟩]
        references := s.references ++ xs } ∧
      ∀ x ∈ xs, ∃ ty ∈ types, ∃ ys, W.componentName s file local_ inImport ty = .ok ys ∧ x ∈ ys := by
  unfold defineType at h
  rw [if_neg hk] at h
  split at h
  · next types htypes =>
    cases hmap : types.mapM (W.componentName s file local_ inImport) with
    | error e =>
      rw [hmap] at h
      exact nomatch h
    | ok xs =>
      rw [hmap] at h
      refine ⟨types, xs.flatten, htypes, (Except.ok.inj h).symm, fun x hx => ?_⟩
      obtain ⟨ys, hys, hxy⟩ := List.mem_flatten.mp hx
      obtain ⟨ty, hty, hcomp⟩ := mapM_ok_mem hmap hys
      exact ⟨ty, hty, ys, hcomp, hxy⟩
  · exact nomatch h

theorem defineType_resource {file : GoPackage} {local_ : Option WorldKey} {inImport : Bool} {id : TypeId}
    (hk : W.r.types id = .resource) (h : W.defineType s file local_ inImport id = .ok s') :
    s' = { s with
      resources := Function.update s.resources id (some (if inImport then .import_ else .export_))
      declared := s.declared ++
        [⟨file, id, Function.update s.resources id (some (if inImport then .import_ else .export_))⟩] } := by
  unfold defineType at h
  rw [if_pos hk] at h
  exact (Except.ok.inj h).symm

/-! ### One step -/

theorem mem_append_step {key : WorldKey} {id : TypeId} {x : Step} (hx : ∀ key id, x ≠ Step.exportType key id)
    (h : Step.exportType key id ∈ before ++ [x]) : Step.exportType key id ∈ before := by
  rcases List.mem_append.mp h with h | h
  · exact h
  · exact absurd (List.mem_singleton.mp h).symm (hx key id)

theorem Inv.print {site : Site} {ty : TypeRef} {x : Step} (h : Inv W before s) (hx : ∀ key id, x ≠ Step.exportType key id)
    (hname : W.Nameable before s ty) (hleads : ∀ id, W.Names ty id → Leads W s site id)
    (hs : W.print s site ty = .ok s') : Inv W (before ++ [x]) s' := by
  unfold World.print at hs
  cases hxs : W.typeName s site ty with
  | error e =>
    rw [hxs] at hs
    exact nomatch hs
  | ok xs =>
    rw [hxs] at hs
    obtain rfl := Except.ok.inj hs
    refine ⟨h.plain, fun key id hbefore => h.exported key id (mem_append_step hx hbefore), h.correct.placed, ?_⟩
    intro y hy
    rcases List.mem_append.mp hy with hy | hy
    · exact h.correct.resolves y hy
    · exact typeName_resolves h hname hleads hxs y hy

/-- A definition that is not a resource, in the package it belongs to. -/
theorem Inv.declare {name : String} {id : TypeId} {exported : Bool} {x : Step} {xs : List Reference}
    (h : Inv W before s) (hexported : exported = true ↔ W.ReachesExported s.resources (.id id))
    (hbefore : ∀ key' id', Step.exportType key' id' ∈ before ++ [x] →
      Step.exportType key' id' ∈ before ∨ (id' = id ∧ W.goPackageName (some key') = name))
    (hxs : ∀ y ∈ xs, Resolves W s.declared y) :
    Inv W (before ++ [x]) { s with
      types := (name, id) :: s.types
      declared := s.declared ++ [⟨.generated exported name, id, s.resources⟩]
      references := s.references ++ xs } := by
  have hsub : s.declared ⊆ s.declared ++ [⟨.generated exported name, id, s.resources⟩] := List.subset_append_left _ _
  have hnew : (⟨.generated exported name, id, s.resources⟩ : Declaration) ∈
      s.declared ++ [⟨.generated exported name, id, s.resources⟩] := List.mem_append_right _ (List.mem_singleton_self _)
  refine ⟨fun name' id' hmem hreach => ?_, fun key' id' hmem hreach => ?_, fun d hd => ?_, fun y hy => ?_⟩
  · rcases List.mem_cons.mp hmem with hsame | hmem
    · obtain ⟨rfl, rfl⟩ := Prod.mk.inj hsame
      obtain rfl : exported = false := Bool.eq_false_iff.mpr fun he => hreach (hexported.mp he)
      exact ⟨_, hnew, rfl, rfl⟩
    · obtain ⟨d, hd, hfile⟩ := h.plain name' id' hmem hreach
      exact ⟨d, hsub hd, hfile⟩
  · rcases hbefore key' id' hmem with hmem | ⟨rfl, hname⟩
    · obtain ⟨d, hd, hfile⟩ := h.exported key' id' hmem hreach
      exact ⟨d, hsub hd, hfile⟩
    · obtain rfl : exported = true := hexported.mpr hreach
      exact ⟨_, hnew, by rw [hname], rfl⟩
  · rcases List.mem_append.mp hd with hd | hd
    · exact h.correct.placed d hd
    · obtain rfl := List.mem_singleton.mp hd
      exact hexported
  · rcases List.mem_append.mp hy with hy | hy
    · exact (h.correct.resolves y hy).mono hsub
    · exact (hxs y hy).mono hsub

/-- The definition of a resource, which may make it an exported one. -/
theorem Inv.declareResource {name : String} {id : TypeId} {x : Step} (h : Inv W before s) (exported : Bool)
    (hk : W.r.types id = .resource)
    (hkeep : exported = false → s.resources id ≠ some .export_)
    (hturn : exported = true → ∀ key' id', Step.exportType key' id' ∈ before → Occurs W.r (.id id') (.id id) →
      W.ReachesExported s.resources (.id id'))
    (hbefore : ∀ key' id', Step.exportType key' id' ∈ before ++ [x] →
      Step.exportType key' id' ∈ before ∨ (id' = id ∧ exported = true ∧ W.goPackageName (some key') = name)) :
    Inv W (before ++ [x]) { s with
      types := (name, id) :: s.types
      resources := Function.update s.resources id (some (if exported then .export_ else .import_))
      declared := s.declared ++ [⟨.generated exported name, id,
        Function.update s.resources id (some (if exported then .export_ else .import_))⟩] } := by
  have hself : ∀ i, i ≠ id → Function.update s.resources id (some (if exported then .export_ else .import_)) i =
      s.resources i := fun i hi => Function.update_of_ne hi _ _
  have hgrow : ∀ t, W.ReachesExported s.resources t →
      W.ReachesExported (Function.update s.resources id (some (if exported then .export_ else .import_))) t := by
    rintro t ⟨i, hi, hres, hdir⟩
    refine ⟨i, hi, hres, ?_⟩
    by_cases hid : i = id
    · subst hid
      cases exported with
      | false => exact absurd hdir (hkeep rfl)
      | true => rw [Function.update_self]; rfl
    · rw [hself i hid]
      exact hdir
  have hnew : (⟨.generated exported name, id,
      Function.update s.resources id (some (if exported then .export_ else .import_))⟩ : Declaration) ∈
      s.declared ++ [⟨.generated exported name, id,
        Function.update s.resources id (some (if exported then .export_ else .import_))⟩] :=
    List.mem_append_right _ (List.mem_singleton_self _)
  have hown : exported = true ↔
      W.ReachesExported (Function.update s.resources id (some (if exported then .export_ else .import_))) (.id id) := by
    rw [reachesExported_resource hk, Function.update_self]
    cases exported <;> simp
  refine ⟨fun name' id' hmem hreach => ?_, fun key' id' hmem hreach => ?_, fun d hd => ?_, fun y hy => ?_⟩
  · rcases List.mem_cons.mp hmem with hsame | hmem
    · obtain ⟨rfl, rfl⟩ := Prod.mk.inj hsame
      obtain rfl : exported = false := Bool.eq_false_iff.mpr fun he => hreach (hown.mp he)
      exact ⟨_, hnew, rfl, rfl⟩
    · obtain ⟨d, hd, hfile⟩ := h.plain name' id' hmem fun hold => hreach (hgrow _ hold)
      exact ⟨d, List.mem_append_left _ hd, hfile⟩
  · rcases hbefore key' id' hmem with hmem | ⟨rfl, rfl, hname⟩
    · have hold : W.ReachesExported s.resources (.id id') := by
        obtain ⟨i, hi, hres, hdir⟩ := hreach
        by_cases hid : i = id
        · subst hid
          cases exported with
          | false => simp at hdir
          | true => exact hturn rfl key' id' hmem hi
        · exact ⟨i, hi, hres, hself i hid ▸ hdir⟩
      obtain ⟨d, hd, hfile⟩ := h.exported key' id' hmem hold
      exact ⟨d, List.mem_append_left _ hd, hfile⟩
    · exact ⟨_, hnew, by rw [hname], rfl⟩
  · rcases List.mem_append.mp hd with hd | hd
    · exact h.correct.placed d hd
    · obtain rfl := List.mem_singleton.mp hd
      exact hown
  · exact (h.correct.resolves y hy).mono (List.subset_append_left _ _)

theorem Inv.importType {key : Option WorldKey} {id : TypeId} (h : Inv W before s)
    (hfine : W.Fine before s (Step.importType key id)) (hs : W.step s (Step.importType key id) = .ok s') :
    Inv W (before ++ [Step.importType key id]) s' := by
  obtain ⟨hplain, hnames⟩ := hfine
  have hold : ∀ key' id', Step.exportType key' id' ∈ before ++ [Step.importType key id] →
      Step.exportType key' id' ∈ before := fun key' id' => mem_append_step nofun
  simp only [World.step] at hs
  split at hs
  · obtain rfl := Except.ok.inj hs
    exact ⟨h.plain, fun key' id' hmem => h.exported key' id' (hold key' id' hmem), h.correct⟩
  · by_cases hk : W.r.types id = .resource
    · obtain rfl := defineType_resource hk hs
      refine h.declareResource false hk (fun _ hdir => ?_) nofun fun key' id' hmem => Or.inl (hold key' id' hmem)
      exact hplain ((reachesExported_resource hk).mpr hdir)
    · obtain ⟨types, xs, htypes, rfl, hxs⟩ := defineType_ok hk hs
      refine h.declare (iff_of_false Bool.false_ne_true hplain) (fun key' id' hmem => Or.inl (hold key' id' hmem))
        fun y hy => ?_
      obtain ⟨ty, hty, ys, hcomp, hyys⟩ := hxs y hy
      have hcomp' : W.componentName s (.generated false (W.goPackageName key)) key true ty = .ok ys := hcomp
      refine componentName_resolves h (hnames types htypes ty hty) (fun _ id' _ => Leads.straight rfl) ?_ hcomp' y hyys
      exact fun hexport => nomatch hexport

/-- The search stops at a list of fixed length. -/
theorem not_fixed_of_hasExported {id : TypeId} {b : Bool}
    (h : W.hasExportedResource s.resources (.id id) = .ok b) : ∀ e n, W.r.types id ≠ .fixedLengthList e n := by
  intro e n hfixed
  unfold hasExportedResource at h
  rw [any.eq_def] at h
  simp only [hfixed] at h
  split at h
  · cases h
  · next ts hts =>
    rw [hfixed] at hts
    cases hts

theorem Inv.exportType {key : WorldKey} {id : TypeId} (h : Inv W before s)
    (hfine : W.Fine before s (Step.exportType key id)) (hs : W.step s (Step.exportType key id) = .ok s') :
    Inv W (before ++ [Step.exportType key id]) s' := by
  obtain ⟨hsearched, hturn, hnames⟩ := hfine
  have hold : ∀ key' id', Step.exportType key' id' ∈ before ++ [Step.exportType key id] →
      Step.exportType key' id' ∈ before ∨ (id' = id ∧ key' = key) := by
    intro key' id' hmem
    rcases List.mem_append.mp hmem with hmem | hmem
    · exact Or.inl hmem
    · obtain ⟨rfl, rfl⟩ := Step.exportType.inj (List.mem_singleton.mp hmem)
      exact Or.inr ⟨rfl, rfl⟩
  simp only [World.step] at hs
  by_cases hk : W.r.types id = .resource
  · rw [if_pos hk] at hs
    simp only [pure_bind, or_true, if_true] at hs
    obtain rfl := defineType_resource hk hs
    refine h.declareResource true hk nofun (fun _ => hturn hk) fun key' id' hmem => ?_
    exact (hold key' id' hmem).imp_right fun ⟨hid, hkey⟩ => ⟨hid, rfl, hkey ▸ rfl⟩
  · rw [if_neg hk] at hs
    cases hexp : W.hasExportedResource s.resources (.id id) with
    | error e =>
      rw [hexp] at hs
      exact nomatch hs
    | ok exported =>
      have hreach := hasExportedResource_exact hexp hsearched
      have hfixed := not_fixed_of_hasExported hexp
      rw [hexp] at hs
      simp only [bind, Except.bind] at hs
      split at hs
      · obtain ⟨types, xs, htypes, rfl, hxs⟩ := defineType_ok hk hs
        refine h.declare hreach (fun key' id' hmem => (hold key' id' hmem).imp_right fun ⟨hid, hkey⟩ => ⟨hid, hkey ▸ rfl⟩)
          fun y hy => ?_
        obtain ⟨ty, hty, ys, hcomp, hyys⟩ := hxs y hy
        have hcomp' : W.componentName s (.generated exported (W.goPackageName (some key))) (some key) false ty =
            .ok ys := hcomp
        obtain ⟨hsearched', hname, hmixed⟩ := hnames types htypes ty hty
        refine componentName_resolves h hname (fun hplain j hj => ?_) (fun _ hmeets j hj => ?_) hcomp' y hyys
        · cases exported with
          | false => exact Leads.straight rfl
          | true =>
            -- the component is named as from an import, but the file is in the `export_` package
            have hnot : ¬W.ReachesExported s.resources ty := fun hr =>
              (hplain.resolve_left Bool.false_ne_true) (hsearched' hr)
            exact fun _ _ howner => absurd howner (hmixed (hreach.mp rfl) hnot j hj)
        · have hown : exported = true :=
            hreach.mpr (reaches_of_namedTypes hfixed htypes hty (hmeets.imp fun i hi => ⟨hi.1.occurs, hi.2⟩))
          subst hown
          exact Leads.straight rfl
      · next hskip =>
        obtain rfl := Except.ok.inj hs
        refine ⟨h.plain, fun key' id' hmem hr => ?_, h.correct⟩
        rcases hold key' id' hmem with hmem | ⟨rfl, rfl⟩
        · exact h.exported key' id' hmem hr
        · exact absurd (Or.inr (hreach.mpr hr)) hskip

theorem FineRun.inv (h : FineRun W before s) : Inv W before s := by
  induction h with
  | new => exact ⟨nofun, nofun, nofun, nofun⟩
  | @step before s s' x _ hfine hx ih =>
    cases x with
    | enter key id =>
      obtain rfl := Except.ok.inj hx
      have hx' : ∀ key' id', Step.enter key id ≠ Step.exportType key' id' := fun _ _ => nofun
      exact ⟨ih.plain, fun key' id' hmem => ih.exported key' id' (mem_append_step hx' hmem),
        ⟨ih.correct.placed, ih.correct.resolves⟩⟩
    | importType key id => exact ih.importType hfine hx
    | exportType key id => exact ih.exportType hfine hx
    | importFunction key ty => exact ih.print nofun hfine (fun _ _ => Leads.straight rfl) hx
    | exportFunction ty => exact ih.print nofun hfine (fun id hid => Leads.main (hfine id hid).2) hx
    | stub key ty => exact ih.print nofun hfine (fun _ _ => Leads.straight rfl) hx
    | payload key inImport payload ty =>
      simp only [World.step] at hx
      cases hexp : W.hasExportedResource s.resources payload with
      | error e =>
        rw [hexp] at hx
        exact nomatch hx
      | ok exported =>
        rw [hexp] at hx
        simp only [bind, Except.bind] at hx
        refine ih.print nofun hfine (fun id _ => ?_) hx
        split
        · exact Leads.straight rfl
        · exact Leads.straight rfl

variable (W) in
/-- What `any` answers is right exactly if it does not miss all the types with `p`, which it does
where they occur in the error types of results with an ok type only. In a run whose steps
meet the condition, every type is declared in, and referred to from, the package it belongs to. -/
theorem packages_exact :
    (∀ (p : TypeRef → Bool) ty b, any W.r (fun t => .ok (p t)) ty = .ok b →
      ((b = true ↔ ∃ t, Occurs W.r ty t ∧ p t = true) ↔
        ((∃ t, Occurs W.r ty t ∧ p t = true) → ∃ t, Met W.r ty t ∧ p t = true))) ∧
    ∀ steps s, FineRun W steps s → Correct W s := by
  refine ⟨fun p ty b h => ?_, fun steps s h => h.inv.correct⟩
  have hspec : b = true ↔ ∃ t, Met W.r ty t ∧ p t = true := by
    rw [any_spec h]
    simp only [Except.ok.injEq]
  rw [hspec]
  have hmet : (∃ t, Met W.r ty t ∧ p t = true) → ∃ t, Occurs W.r ty t ∧ p t = true :=
    fun ⟨t, ht, hp⟩ => ⟨t, ht.occurs, hp⟩
  exact ⟨fun hiff => hiff.mpr, fun hsearched => ⟨hmet, hsearched⟩⟩

/-! ### A resource in an error type -/

/-- A resource, a handle to it, and a result whose error type is the handle. -/
def fallible : Resolve where
  types
    | 0 => .resource
    | 1 => .handle (.own 0)
    | 2 => .result (some (.prim .u32)) (some (.id 1))
    | _ => .flags []
  rank i := i
  rank_lt := by
    intro i j h
    match i with
    | 0 => exact absurd h List.not_mem_nil
    | 1 =>
      obtain rfl : j = 0 := by simpa [TypeDefKind.components, Handle.resource] using h
      decide
    | 2 =>
      obtain rfl : j = 1 := by simpa [TypeDefKind.components] using h
      decide
    | n + 3 => exact absurd h List.not_mem_nil
  known := by
    intro i
    match i with
    | 0 | 1 | 2 | n + 3 => exact nofun

def fallibleWorld : World := ⟨fallible, fun _ => .interface 0, fun _ => "test_dep_test"⟩

theorem named_handle : fallibleWorld.named (.id 1) = some [0] := by
  have hres : fallibleWorld.named (.id 0) = some [0] := by
    rw [named.eq_def]
    rfl
  rw [named.eq_def]
  show (((TypeDefKind.handle (.own 0)).components.attach.mapM fun t => fallibleWorld.named t.1).map List.flatten) = _
  rw [List.mapM_subtype (g := fallibleWorld.named) fun _ _ => rfl, List.unattach_attach]
  show (([.id 0] : List TypeRef).mapM fallibleWorld.named).map List.flatten = _
  rw [List.mapM_cons, hres]
  rfl

def entered (s : GoState) : GoState :=
  { s with interfaceNames := Function.update s.interfaceNames 0 (some (.interface 0)) }

/-- After the resource is declared in one of the two packages. -/
def declaredIn (exported : Bool) (s : GoState) : GoState :=
  let resources := Function.update s.resources 0 (some (if exported then .export_ else .import_))
  { s with
    types := ("test_dep_test", 0) :: s.types
    resources
    declared := s.declared ++ [⟨.generated exported "test_dep_test", 0, resources⟩] }

def declaredTwice : GoState := declaredIn true (entered (declaredIn false (entered GoState.new)))

theorem declaredTwice_named : ∃ s, fallibleWorld.step declaredTwice (.exportFunction (.id 1)) = .ok s := by
  have hexported : fallibleWorld.hasExportedResource declaredTwice.resources (.id 0) = .ok true := by
    unfold hasExportedResource
    rw [any.eq_def]
    rfl
  have hpackage : fallibleWorld.package declaredTwice exportSite 0 =
      .ok ⟨.generated true "test_dep_test", 0, declaredTwice.resources⟩ := by
    unfold package
    rw [hexported]
    rfl
  have hname : fallibleWorld.typeName declaredTwice exportSite (.id 1) =
      .ok [⟨.generated true "test_dep_test", 0, declaredTwice.resources⟩] := by
    unfold typeName
    rw [named_handle]
    simp only [List.mapM_cons, hpackage, List.mapM_nil]
    rfl
  have hstep : fallibleWorld.step declaredTwice (.exportFunction (.id 1)) =
      (fallibleWorld.typeName declaredTwice exportSite (.id 1)).map fun xs => { declaredTwice with references := xs } := rfl
  rw [hname] at hstep
  exact ⟨_, hstep⟩

/-- The interface is imported and exported, with a function that takes the handle. -/
theorem fallible_run : ∃ s, FineRun fallibleWorld
    (fallibleWorld.importInterface (.interface 0) 0 [0] [] ++
      fallibleWorld.exportInterface false (.interface 0) 0 [0] [⟨[.id 1], none, [.id 1], []⟩]) s ∧
    Correct fallibleWorld s := by
  have hnone : ∀ ty, ¬fallibleWorld.ReachesExported GoState.new.resources ty := fun ty ⟨i, _, _, hdir⟩ => nomatch hdir
  have hresource : ∀ types, namedTypes 0 (fallible.types 0) = some types → types = [] :=
    fun types htypes => (Option.some.inj htypes).symm
  have hsearched : ∀ resources, fallibleWorld.Searched resources (.id 0) := by
    rintro resources ⟨i, hi, hres⟩
    have hsame : (.id i : TypeRef) = .id 0 := occurs_resource rfl hi
    exact ⟨i, hsame ▸ .refl _, hres⟩
  have himported : FineRun fallibleWorld [Step.enter (.interface 0) 0, Step.importType (some (.interface 0)) 0]
      (declaredIn false (entered GoState.new)) := by
    have hfine : fallibleWorld.Fine [Step.enter (.interface 0) 0] (entered GoState.new)
        (Step.importType (some (.interface 0)) 0) :=
      ⟨hnone _, fun types htypes => by rw [hresource types htypes]; exact nofun⟩
    exact (FineRun.new.step (x := Step.enter (.interface 0) 0) trivial rfl).step hfine rfl
  have hexported : FineRun fallibleWorld [Step.enter (.interface 0) 0, Step.importType (some (.interface 0)) 0,
      Step.enter (.interface 0) 0, Step.exportType (.interface 0) 0] declaredTwice := by
    have hfine : fallibleWorld.Fine [Step.enter (.interface 0) 0, Step.importType (some (.interface 0)) 0,
        Step.enter (.interface 0) 0] (entered (declaredIn false (entered GoState.new))) (Step.exportType (.interface 0) 0) :=
      ⟨hsearched _, fun _ key' id' hmem => by simp at hmem, fun types htypes => by
        rw [hresource types htypes]
        exact nofun⟩
    exact (himported.step (x := Step.enter (.interface 0) 0) trivial rfl).step hfine rfl
  have hfine : fallibleWorld.Fine [Step.enter (.interface 0) 0, Step.importType (some (.interface 0)) 0,
      Step.enter (.interface 0) 0, Step.exportType (.interface 0) 0] declaredTwice (.exportFunction (.id 1)) := by
    rintro id ⟨ids, hids, hid⟩
    rw [named_handle] at hids
    obtain rfl := Option.some.inj hids
    obtain rfl := List.mem_singleton.mp hid
    refine ⟨hsearched _, fun owner howner => ?_⟩
    obtain rfl := Except.ok.inj howner
    exact ⟨List.mem_cons_self, fun _ => ⟨.interface 0, rfl, by simp⟩⟩
  obtain ⟨s, hs⟩ := declaredTwice_named
  exact ⟨s, hexported.step hfine hs, (packages_exact fallibleWorld).2 _ s (hexported.step hfine hs)⟩

/-- A handle in the error type of a result that has an ok type is overlooked. -/
theorem error_overlooked : fallibleWorld.hasExportedResource (fun _ => some .export_) (.id 2) = .ok false ∧
    fallibleWorld.ReachesExported (fun _ => some .export_) (.id 2) := by
  constructor
  · unfold hasExportedResource
    rw [any_id (i := 2) rfl rfl, List.anyM_cons, any.eq_def]
    rfl
  · refine ⟨0, .step nofun (t := .id 1) ?_ (.step nofun (t := .id 0) ?_ (.refl _)), rfl, rfl⟩
    · exact List.mem_append_right _ (List.mem_singleton_self _)
    · exact List.mem_singleton_self _

end World

end WitBindgen.Go.Packages
