import WitBindgen.Types.Info

/-!
# How types are used

When the structure of all definitions is known, `Types::analyze` goes through the functions of
every world and marks the named definitions below their types: borrowed in the parameters of
an import, owned in those of an export and in results. The definition behind the error of a
result is marked as an error.
-/

namespace WitBindgen.Types

/-! ## Functions and worlds -/

abbrev InterfaceId := Nat

structure Func where
  params : List (String × TypeRef)
  result : Option TypeRef

inductive WorldItem where
  | function (func : Func)
  | interface (id : InterfaceId)
  | type (id : TypeId)

structure World where
  imports : List WorldItem
  exports : List WorldItem

def Func.types (func : Func) : List TypeRef := func.params.map (·.2) ++ func.result.toList

/-- The functions of an item, given those of each interface. -/
def WorldItem.funcs (interfaces : InterfaceId → List Func) : WorldItem → List Func
  | .function func => [func]
  | .interface id => interfaces id
  | .type _ => []

/-- A `Resolve` with its arena, in which all references stay, its interfaces and its worlds. -/
structure Source extends Resolve where
  arena : List TypeId
  named : TypeId → Bool
  interfaces : InterfaceId → List Func
  worlds : List World
  closed : ∀ i ∈ arena, ∀ j, .id j ∈ (types i).components → j ∈ arena
  funcs_closed : ∀ w ∈ worlds, ∀ item ∈ w.imports ++ w.exports, ∀ func ∈ item.funcs interfaces,
    ∀ j, .id j ∈ func.types → j ∈ arena

end WitBindgen.Types

namespace WitBindgen.Resolve

variable (r : Resolve)

/-- A type comes to a definition, through futures and handles too. -/
inductive Leads : TypeRef → TypeId → Prop
  | self (i : TypeId) : Leads (.id i) i
  | component {i j : TypeId} {t : TypeRef} (ht : t ∈ (r.types i).components) (h : Leads t j) : Leads (.id i) j

end WitBindgen.Resolve

namespace WitBindgen.Types

/-- `LiveTypes` after it was given some types. -/
structure Live (r : Resolve) where
  ids : List TypeRef → List TypeId
  mem_ids : ∀ types i, i ∈ ids types ↔ ∃ t ∈ types, r.Leads t i

/-! ## Aliases -/

section

variable (r : Resolve)

def definitionTo : Nat → TypeId → TypeId
  | 0, id => id
  | n + 1, id =>
    match r.types id with
    | .type (.id target) => definitionTo n target
    | _ => id

/-- `resolve_type_definition_id`. -/
def resolveTypeDefinitionId (id : TypeId) : TypeId := definitionTo r (r.rank id) id

/-- The definition that is marked when `t` is the type of a result. -/
def errorDefinition : TypeRef → Option TypeId
  | .id id =>
    match r.types id with
    | .result _ (some (.id err)) => some (resolveTypeDefinitionId r err)
    | _ => none
  | _ => none

end

/-! ## The marks -/

/-- `get_mut(..).unwrap()`, and a change to what is there. -/
def mark (change : TypeInfo → TypeInfo) (ty : TypeId) : InfoM Unit := fun s =>
  match s ty with
  | some info => some ((), Function.update s ty (some (change info)))
  | none => none

namespace Source

variable (P : Source) (L : Live P.toResolve)

def markNamed (change : TypeInfo → TypeInfo) (ty : TypeId) : InfoM Unit :=
  if P.named ty then mark change ty else pure ()

def lookAt (t : TypeRef) : InfoM Unit := do
  let _ ← typeInfo (typeIdInfo P.toResolve) t

def typeInfoFunc (func : Func) (isImport : Bool) : InfoM Unit := do
  (func.params.map (·.2)).forM P.lookAt
  (L.ids (func.params.map (·.2))).forM (P.markNamed fun info =>
    if isImport then { info with borrowed := true } else { info with owned := true })
  func.result.toList.forM P.lookAt
  (L.ids func.result.toList).forM (P.markNamed fun info => { info with owned := true })
  (func.result.bind (errorDefinition P.toResolve)).toList.forM (mark fun info => { info with error := true })

def itemInfo (isImport : Bool) : WorldItem → InfoM Unit
  | .function func => P.typeInfoFunc L func isImport
  | .interface id => (P.interfaces id).forM fun func => P.typeInfoFunc L func isImport
  | .type _ => pure ()

def worldInfo (w : World) : InfoM Unit := do
  w.imports.forM (P.itemInfo L true)
  w.exports.forM (P.itemInfo L false)

def analyze : InfoM Unit := do
  P.arena.forM fun t => P.lookAt (.id t)
  P.worlds.forM (P.worldInfo L)

end Source

/-! ## Flags -/

def TypeInfo.flags : List (TypeInfo → Bool) :=
  [borrowed, owned, error, hasList, hasTuple, hasResource, hasBorrowHandle, hasOwnHandle]

section

variable {flag : TypeInfo → Bool} (a b c : TypeInfo)

theorem flag_or (h : flag ∈ TypeInfo.flags) : flag (a.or b) = (flag a || flag b) := by
  simp only [TypeInfo.flags, List.mem_cons, List.not_mem_nil, or_false] at h
  rcases h with rfl | rfl | rfl | rfl | rfl | rfl | rfl | rfl <;> rfl

theorem flag_none (h : flag ∈ TypeInfo.flags) : flag {} = false := by
  simp only [TypeInfo.flags, List.mem_cons, List.not_mem_nil, or_false] at h
  rcases h with rfl | rfl | rfl | rfl | rfl | rfl | rfl | rfl <;> rfl

@[simp] theorem TypeInfo.or_none : a.or {} = a := by simp [TypeInfo.or]

@[simp] theorem TypeInfo.none_or : TypeInfo.or {} a = a := by simp [TypeInfo.or]

@[simp] theorem TypeInfo.or_self : a.or a = a := by simp [TypeInfo.or]

theorem TypeInfo.or_assoc : (a.or b).or c = a.or (b.or c) := by simp [TypeInfo.or, Bool.or_assoc]

end

def joined (infos : List TypeInfo) : TypeInfo := infos.foldr TypeInfo.or {}

theorem joined_none {α : Type} (xs : List α) : joined (xs.map fun _ => {}) = {} := by
  induction xs with
  | nil => rfl
  | cons x xs ih =>
    show TypeInfo.or {} (joined _) = _
    rw [ih]
    rfl

theorem joined_flag {flag : TypeInfo → Bool} (h : flag ∈ TypeInfo.flags) (infos : List TypeInfo) :
    flag (joined infos) = infos.any flag := by
  induction infos with
  | nil => exact flag_none h
  | cons info infos ih =>
    show flag (info.or (joined infos)) = _
    rw [flag_or _ _ h, ih, List.any_cons]

/-! ## What a function marks -/

section

variable {P : Source} {L : Live P.toResolve} {s : Infos}

/-- All of the arena is in the table. -/
def Full (P : Source) (s : Infos) : Prop := ∀ i ∈ P.arena, ∃ info, s i = some info

/-- The code adds these flags to the records in a full table. -/
def Marks (P : Source) (m : InfoM Unit) (g : TypeId → TypeInfo) : Prop :=
  ∀ s, Full P s → m s = some ((), fun i => (s i).map fun info => info.or (g i))

theorem Full.map {g : TypeId → TypeInfo} (h : Full P s) : Full P fun i => (s i).map fun info => info.or (g i) := by
  intro i hi
  obtain ⟨info, hinfo⟩ := h i hi
  refine ⟨info.or (g i), ?_⟩
  dsimp only
  rw [hinfo]
  rfl

variable {m m' : InfoM Unit} {g g' : TypeId → TypeInfo}

theorem Marks.congr (h : Marks P m g) (hg : ∀ i, g i = g' i) : Marks P m g' := (funext hg : g = g') ▸ h

theorem marks_pure : Marks P (pure ()) fun _ => {} := by
  intro s _
  simp only [TypeInfo.or_none, Option.map_id']
  rfl

theorem Marks.bind (h : Marks P m g) (h' : Marks P m' g') :
    Marks P (m >>= fun _ => m') fun i => (g i).or (g' i) := by
  intro s hs
  show (m s).bind _ = _
  rw [h s hs]
  show m' _ = _
  rw [h' _ hs.map]
  simp only [Option.map_map, Function.comp_def, TypeInfo.or_assoc]

theorem marks_forM {α : Type} {f : α → InfoM Unit} {u : α → TypeId → TypeInfo} {xs : List α}
    (h : ∀ x ∈ xs, Marks P (f x) (u x)) : Marks P (xs.forM f) fun i => joined (xs.map fun x => u x i) := by
  induction xs with
  | nil => exact marks_pure
  | cons x xs ih => exact (h x List.mem_cons_self).bind (ih fun y hy => h y (List.mem_cons_of_mem _ hy))

theorem marks_lookAt {t : TypeRef} (ht : ∀ i, t = .id i → i ∈ P.arena) : Marks P (P.lookAt t) fun _ => {} := by
  intro s hs
  have hlook : ∃ info, typeInfo (typeIdInfo P.toResolve) t s = some (info, s) := by
    cases t with
    | id i =>
      obtain ⟨info, hinfo⟩ := hs i (ht i rfl)
      exact ⟨info, typeIdInfo_known hinfo⟩
    | _ => exact ⟨_, rfl⟩
  obtain ⟨info, hinfo⟩ := hlook
  simp only [TypeInfo.or_none, Option.map_id']
  show (typeInfo _ t s).bind _ = _
  rw [hinfo]
  rfl

theorem marks_mark {change : TypeInfo → TypeInfo} {c : TypeInfo} (hchange : ∀ info, change info = info.or c)
    {ty : TypeId} (hty : ty ∈ P.arena) : Marks P (mark change ty) fun i => if i = ty then c else {} := by
  intro s hs
  obtain ⟨info, hinfo⟩ := hs ty hty
  simp only [mark, hinfo, hchange]
  congr
  funext i
  by_cases hi : i = ty
  · subst hi
    rw [Function.update_self, hinfo, if_pos rfl]
    rfl
  · rw [Function.update_of_ne hi]
    simp [hi]

theorem marks_markNamed {change : TypeInfo → TypeInfo} {c : TypeInfo} (hchange : ∀ info, change info = info.or c)
    {ids : List TypeId} (hids : ∀ i ∈ ids, i ∈ P.arena) :
    Marks P (ids.forM (P.markNamed change)) fun i => if P.named i = true ∧ i ∈ ids then c else {} := by
  induction ids with
  | nil => exact marks_pure.congr fun i => by simp
  | cons ty ids ih =>
    have hfirst : Marks P (P.markNamed change ty) fun i => if P.named i = true ∧ i = ty then c else {} := by
      unfold Source.markNamed
      split
      · next hnamed =>
        refine (marks_mark hchange (hids ty List.mem_cons_self)).congr fun i => ?_
        by_cases hi : i = ty
        · subst hi
          simp [hnamed]
        · simp [hi]
      · next hnamed =>
        refine marks_pure.congr fun i => ?_
        by_cases hi : i = ty
        · subst hi
          simp [hnamed]
        · simp [hi]
    refine (hfirst.bind (ih fun i hi => hids i (List.mem_cons_of_mem _ hi))).congr fun i => ?_
    by_cases hi : i = ty
    · subst hi
      by_cases hm : i ∈ ids <;> by_cases hn : P.named i = true <;> simp [hn, hm]
    · simp [hi]

variable (P L) in
/-- What a function marks a definition with. -/
def Source.useOf (isImport : Bool) (func : Func) (i : TypeId) : TypeInfo where
  borrowed := isImport && P.named i && decide (i ∈ L.ids (func.params.map (·.2)))
  owned := P.named i && (!isImport && decide (i ∈ L.ids (func.params.map (·.2))) || decide (i ∈ L.ids func.result.toList))
  error := decide (func.result.bind (errorDefinition P.toResolve) = some i)

theorem leads_arena {t : TypeRef} {i : TypeId} (h : P.Leads t i) (ht : ∀ j, t = .id j → j ∈ P.arena) :
    i ∈ P.arena := by
  induction h with
  | self i => exact ht i rfl
  | @component i j t hcomponent _ ih =>
    refine ih fun k hk => ?_
    subst hk
    exact P.closed i (ht i rfl) k hcomponent

theorem definitionTo_arena (n : Nat) {id : TypeId} (h : id ∈ P.arena) : definitionTo P.toResolve n id ∈ P.arena := by
  induction n generalizing id with
  | zero => exact h
  | succ n ih =>
    rw [definitionTo]
    split
    · next target htarget => exact ih (P.closed id h target (by rw [htarget]; exact List.mem_singleton_self _))
    · exact h

theorem errorDefinition_arena {t : TypeRef} {i : TypeId} (h : errorDefinition P.toResolve t = some i)
    (ht : ∀ j, t = .id j → j ∈ P.arena) : i ∈ P.arena := by
  unfold errorDefinition at h
  split at h
  · next id =>
    split at h
    · next ok err herr =>
      obtain rfl := Option.some.inj h
      refine definitionTo_arena _ (P.closed id (ht id rfl) err ?_)
      rw [herr]
      exact List.mem_append_right _ (List.mem_singleton_self _)
    · cases h
  · cases h

theorem marks_typeInfoFunc {func : Func} (hfunc : ∀ j, .id j ∈ func.types → j ∈ P.arena) (isImport : Bool) :
    Marks P (P.typeInfoFunc L func isImport) (P.useOf L isImport func) := by
  have hparam : ∀ t ∈ func.params.map (·.2), ∀ i, t = .id i → i ∈ P.arena := by
    rintro t ht i rfl
    exact hfunc i (List.mem_append_left _ ht)
  have hresult : ∀ t ∈ func.result.toList, ∀ i, t = .id i → i ∈ P.arena := by
    rintro t ht i rfl
    exact hfunc i (List.mem_append_right _ ht)
  have hlive : ∀ {types : List TypeRef}, (∀ t ∈ types, ∀ i, t = .id i → i ∈ P.arena) →
      ∀ i ∈ L.ids types, i ∈ P.arena := by
    intro types htypes i hi
    obtain ⟨t, ht, hleads⟩ := (L.mem_ids types i).mp hi
    exact leads_arena hleads (htypes t ht)
  have herror : ∀ i ∈ (func.result.bind (errorDefinition P.toResolve)).toList, i ∈ P.arena := by
    intro i hi
    obtain ⟨t, ht, hi⟩ := Option.bind_eq_some_iff.mp (Option.mem_toList.mp hi)
    exact errorDefinition_arena hi (hresult t (Option.mem_toList.mpr ht))
  have hlookParams := marks_forM fun t ht => marks_lookAt (hparam t ht)
  have hlookResult := marks_forM fun t ht => marks_lookAt (hresult t ht)
  have hparams : Marks P ((L.ids (func.params.map (·.2))).forM (P.markNamed fun info =>
      if isImport then { info with borrowed := true } else { info with owned := true })) _ :=
    marks_markNamed (c := { borrowed := isImport, owned := !isImport })
      (fun info => by cases isImport <;> simp [TypeInfo.or]) (hlive hparam)
  have howned : Marks P ((L.ids func.result.toList).forM (P.markNamed fun info => { info with owned := true })) _ :=
    marks_markNamed (c := { owned := true }) (fun info => by simp [TypeInfo.or]) (hlive hresult)
  have hmark : Marks P ((func.result.bind (errorDefinition P.toResolve)).toList.forM
      (mark fun info => { info with error := true })) _ :=
    marks_forM fun i hi => marks_mark (c := { error := true }) (fun info => by simp [TypeInfo.or]) (herror i hi)
  refine (hlookParams.bind (hparams.bind (hlookResult.bind (howned.bind hmark)))).congr fun i => ?_
  have herr : joined ((func.result.bind (errorDefinition P.toResolve)).toList.map fun x =>
      if i = x then ({ error := true } : TypeInfo) else {}) =
      { error := decide (func.result.bind (errorDefinition P.toResolve) = some i) } := by
    cases func.result.bind (errorDefinition P.toResolve) with
    | none => rfl
    | some e =>
      by_cases hi : i = e
      · subst hi
        simp [joined]
      · simp [joined, hi, Ne.symm hi]
  rw [joined_none, joined_none, herr]
  simp only [Source.useOf, TypeInfo.none_or]
  by_cases hn : P.named i = true <;> by_cases hp : i ∈ L.ids (func.params.map (·.2)) <;>
    by_cases hr : i ∈ L.ids func.result.toList <;> simp [hn, hp, hr, TypeInfo.or]

/-! ## Runs of the analysis -/

variable (P) in
/-- The functions that are imported, and those that are exported. -/
def Source.imported : List Func := P.worlds.flatMap fun w => w.imports.flatMap (WorldItem.funcs P.interfaces)

variable (P) in
def Source.exported : List Func := P.worlds.flatMap fun w => w.exports.flatMap (WorldItem.funcs P.interfaces)

variable (P L) in
def Source.itemUses (isImport : Bool) (items : List WorldItem) (i : TypeId) : TypeInfo :=
  joined (items.map fun item => joined ((item.funcs P.interfaces).map fun func => P.useOf L isImport func i))

theorem marks_itemInfo {isImport : Bool} {item : WorldItem}
    (h : ∀ func ∈ item.funcs P.interfaces, ∀ j, .id j ∈ func.types → j ∈ P.arena) :
    Marks P (P.itemInfo L isImport item) fun i =>
      joined ((item.funcs P.interfaces).map fun func => P.useOf L isImport func i) := by
  cases item with
  | function func =>
    refine (marks_typeInfoFunc (h func (List.mem_singleton_self _)) isImport).congr fun i => ?_
    simp [WorldItem.funcs, joined]
  | interface id => exact marks_forM fun func hfunc => marks_typeInfoFunc (h func hfunc) isImport
  | type id => exact marks_pure

theorem marks_worldInfo {w : World} (hw : w ∈ P.worlds) :
    Marks P (P.worldInfo L w) fun i => (P.itemUses L true w.imports i).or (P.itemUses L false w.exports i) :=
  (marks_forM fun item hitem => marks_itemInfo (P.funcs_closed w hw item (List.mem_append_left _ hitem))).bind
    (marks_forM fun item hitem => marks_itemInfo (P.funcs_closed w hw item (List.mem_append_right _ hitem)))

variable (P L) in
def Source.uses (i : TypeId) : TypeInfo :=
  joined (P.worlds.map fun w => (P.itemUses L true w.imports i).or (P.itemUses L false w.exports i))

theorem uses_flag {flag : TypeInfo → Bool} (h : flag ∈ TypeInfo.flags) (i : TypeId) :
    flag (P.uses L i) = true ↔ (∃ func ∈ P.imported, flag (P.useOf L true func i) = true) ∨
      ∃ func ∈ P.exported, flag (P.useOf L false func i) = true := by
  have hitems : ∀ isImport items, flag (P.itemUses L isImport items i) = true ↔
      ∃ item ∈ items, ∃ func ∈ item.funcs P.interfaces, flag (P.useOf L isImport func i) = true := by
    intro isImport items
    rw [Source.itemUses, joined_flag h, List.any_map, List.any_eq_true]
    refine exists_congr fun item => and_congr_right fun _ => ?_
    show flag (joined _) = true ↔ _
    rw [joined_flag h, List.any_map, List.any_eq_true]
    rfl
  rw [Source.uses, joined_flag h, List.any_map, List.any_eq_true]
  simp only [Function.comp_def, flag_or _ _ h, Bool.or_eq_true, hitems, Source.imported, Source.exported,
    List.mem_flatMap]
  constructor
  · rintro ⟨w, hw, ⟨item, hitem, func, hfunc, hflag⟩ | ⟨item, hitem, func, hfunc, hflag⟩⟩
    · exact Or.inl ⟨func, ⟨w, hw, item, hitem, hfunc⟩, hflag⟩
    · exact Or.inr ⟨func, ⟨w, hw, item, hitem, hfunc⟩, hflag⟩
  · rintro (⟨func, ⟨w, hw, item, hitem, hfunc⟩, hflag⟩ | ⟨func, ⟨w, hw, item, hitem, hfunc⟩, hflag⟩)
    · exact ⟨w, hw, Or.inl ⟨item, hitem, func, hfunc, hflag⟩⟩
    · exact ⟨w, hw, Or.inr ⟨item, hitem, func, hfunc, hflag⟩⟩

/-- The walk over the arena. -/
theorem lookAt_run (ids : List TypeId) (hs : Sound P.toResolve s) :
    ∃ s', ids.forM (fun t => P.lookAt (.id t)) s = some ((), s') ∧ Sound P.toResolve s' ∧ Grows s s' ∧
      ∀ i ∈ ids, ∃ info, s' i = some info := by
  induction ids generalizing s with
  | nil => exact ⟨s, rfl, hs, fun _ _ => id, nofun⟩
  | cons id ids ih =>
    obtain ⟨info, s₁, hm, ⟨-, hid⟩, hs₁, hgrows, -⟩ := typeIdInfo_yields (r := P.toResolve) id s hs
    obtain ⟨s₂, hrun, hs₂, hgrows', hids⟩ := ih hs₁
    refine ⟨s₂, ?_, hs₂, hgrows.trans hgrows', fun i hi => ?_⟩
    · have hlook : P.lookAt (.id id) s = some ((), s₁) := by
        show (typeIdInfo P.toResolve id s).bind _ = _
        rw [hm]
        rfl
      show (P.lookAt (.id id) s).bind _ = _
      rw [hlook]
      exact hrun
    · rcases List.mem_cons.mp hi with rfl | hi
      · exact ⟨info, hgrows' i info hid⟩
      · exact hids i hi

theorem analyze_run (P : Source) (L : Live P.toResolve) : ∃ s, Sound P.toResolve s ∧ Full P s ∧
    P.analyze L (fun _ => none) = some ((), fun i => (s i).map fun info => info.or (P.uses L i)) := by
  obtain ⟨s, hrun, hsound, -, hfull⟩ := lookAt_run (P := P) (s := fun _ => none) P.arena fun _ _ h => by cases h
  refine ⟨s, hsound, hfull, ?_⟩
  show (P.arena.forM (fun t => P.lookAt (.id t)) fun _ => none).bind _ = _
  rw [hrun]
  exact marks_forM (fun w hw => marks_worldInfo hw) s hfull

/-! ## What the flags mean -/

variable (P) in
/-- The flags about structure and about ownership are right. -/
structure Exact (i : TypeId) (info : TypeInfo) : Prop where
  has : ∀ x, info.has x = true ↔ P.Has (.id i) x
  borrowed : info.borrowed = true ↔
    P.named i = true ∧ ∃ func ∈ P.imported, ∃ param ∈ func.params, P.Leads param.2 i
  owned : info.owned = true ↔ P.named i = true ∧
    ((∃ func ∈ P.exported, ∃ param ∈ func.params, P.Leads param.2 i) ∨
      ∃ func ∈ P.imported ++ P.exported, ∃ t, func.result = some t ∧ P.Leads t i)

theorem mem_ids_params {func : Func} {i : TypeId} :
    i ∈ L.ids (func.params.map (·.2)) ↔ ∃ param ∈ func.params, P.Leads param.2 i := by
  rw [L.mem_ids]
  constructor
  · rintro ⟨t, ht, hleads⟩
    obtain ⟨param, hparam, rfl⟩ := List.mem_map.mp ht
    exact ⟨param, hparam, hleads⟩
  · rintro ⟨param, hparam, hleads⟩
    exact ⟨param.2, List.mem_map_of_mem hparam, hleads⟩

theorem mem_ids_result {func : Func} {i : TypeId} :
    i ∈ L.ids func.result.toList ↔ ∃ t, func.result = some t ∧ P.Leads t i := by
  rw [L.mem_ids]
  exact exists_congr fun t => and_congr_left fun _ => Option.mem_toList

theorem exact_of_uses {i : TypeId} {info : TypeInfo} (h : Shows (P.Has (.id i)) info) :
    Exact P i (info.or (P.uses L i)) := by
  obtain ⟨hborrowed, howned, -⟩ := h.unused
  refine ⟨fun x => ?_, ?_, ?_⟩
  · have hflag : ∃ flag ∈ TypeInfo.flags, ∀ info : TypeInfo, info.has x = flag info := by
      cases x
      · exact ⟨TypeInfo.hasList, by simp [TypeInfo.flags], fun _ => rfl⟩
      · exact ⟨TypeInfo.hasTuple, by simp [TypeInfo.flags], fun _ => rfl⟩
      · exact ⟨TypeInfo.hasResource, by simp [TypeInfo.flags], fun _ => rfl⟩
      · exact ⟨TypeInfo.hasBorrowHandle, by simp [TypeInfo.flags], fun _ => rfl⟩
      · exact ⟨TypeInfo.hasOwnHandle, by simp [TypeInfo.flags], fun _ => rfl⟩
    obtain ⟨flag, hmem, hhas⟩ := hflag
    have hunused : (P.uses L i).has x = false := by
      rw [← Bool.not_eq_true, hhas, uses_flag hmem]
      rintro (⟨func, -, hflag⟩ | ⟨func, -, hflag⟩) <;>
      · rw [← hhas] at hflag
        cases x <;> exact nomatch hflag
    rw [hhas, flag_or _ _ hmem, ← hhas, ← hhas, hunused, Bool.or_false]
    exact h.has x
  · have huse : (info.or (P.uses L i)).borrowed = (P.uses L i).borrowed := by
      show (info.borrowed || _) = _
      rw [hborrowed, Bool.false_or]
    rw [huse, uses_flag (by simp [TypeInfo.flags])]
    simp only [Source.useOf, Bool.and_eq_true, decide_eq_true_eq, mem_ids_params, true_and, Bool.false_eq_true,
      false_and, and_false, exists_false, or_false]
    constructor
    · rintro ⟨func, hfunc, hnamed, huse⟩
      exact ⟨hnamed, func, hfunc, huse⟩
    · rintro ⟨hnamed, func, hfunc, huse⟩
      exact ⟨func, hfunc, hnamed, huse⟩
  · have huse : (info.or (P.uses L i)).owned = (P.uses L i).owned := by
      show (info.owned || _) = _
      rw [howned, Bool.false_or]
    rw [huse, uses_flag (by simp [TypeInfo.flags])]
    simp only [Source.useOf, Bool.and_eq_true, Bool.or_eq_true, decide_eq_true_eq, mem_ids_params, mem_ids_result,
      Bool.not_true, Bool.false_eq_true, false_and, false_or, Bool.not_false, true_and]
    constructor
    · rintro (⟨func, hfunc, hnamed, hresult⟩ | ⟨func, hfunc, hnamed, hparam | hresult⟩)
      · exact ⟨hnamed, Or.inr ⟨func, List.mem_append_left _ hfunc, hresult⟩⟩
      · exact ⟨hnamed, Or.inl ⟨func, hfunc, hparam⟩⟩
      · exact ⟨hnamed, Or.inr ⟨func, List.mem_append_right _ hfunc, hresult⟩⟩
    · rintro ⟨hnamed, ⟨func, hfunc, hparam⟩ | ⟨func, hfunc, hresult⟩⟩
      · exact Or.inr ⟨func, hfunc, hnamed, Or.inl hparam⟩
      · rcases List.mem_append.mp hfunc with hfunc | hfunc
        · exact Or.inl ⟨func, hfunc, hnamed, hresult⟩
        · exact Or.inr ⟨func, hfunc, hnamed, Or.inr hresult⟩

end

end WitBindgen.Types
