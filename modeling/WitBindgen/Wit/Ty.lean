import Mathlib.Algebra.GroupWithZero.Nat
import Mathlib.Data.List.Basic

/-!
# WIT types and values

A `Type` together with the `Resolve` it lives in: a `Type::Id` stands here with
the definition it refers to, so that a type is a finite tree. Each such node
keeps its `TypeId`, and the name the generator reads from `resolve.types`.
-/

namespace WitBindgen

abbrev TypeId := Nat

/-- The `Type` variants the generator moves as one core value. -/
inductive Prim where
  | bool | u8 | s8 | u16 | s16 | u32 | s32 | u64 | s64 | f32 | f64 | char
deriving DecidableEq

/-- `Handle::Own` and `Handle::Borrow`, with the resource they refer to. -/
inductive Handle where
  | own (resource : TypeId)
  | borrow (resource : TypeId)
deriving DecidableEq

inductive Ty where
  | prim (p : Prim)
  | string
  | errorContext
  | type (id : TypeId) (t : Ty)
  | list (id : TypeId) (element : Ty)
  | map (id : TypeId) (key value : Ty)
  | fixedLengthList (id : TypeId) (element : Ty) (size : Nat)
  | record (id : TypeId) (name : String) (fields : List (String × Ty))
  | tuple (id : TypeId) (types : List Ty)
  | flags (id : TypeId) (name : String) (flags : List String)
  | variant (id : TypeId) (name : String) (cases : List (String × Option Ty))
  | enum (id : TypeId) (name : String) (cases : List String)
  | option (id : TypeId) (payload : Ty)
  | result (id : TypeId) (ok err : Option Ty)
  | handle (id : TypeId) (handle : Handle) (name : String)
  | future (id : TypeId) (payload : Option Ty)
  | stream (id : TypeId) (payload : Option Ty)
  | resource (id : TypeId)
  | unknown (id : TypeId)

/-- The payload types of a variant, an option or a result, in case order. -/
def Ty.arms : Ty → Option (List (Option Ty))
  | .variant _ _ cases => some (cases.map (·.2))
  | .option _ payload => some [none, some payload]
  | .result _ ok err => some [ok, err]
  | _ => none

/-- The field types of a record or a tuple. -/
def Ty.fieldTypes : Ty → Option (List Ty)
  | .record _ _ fields => some (fields.map (·.2))
  | .tuple _ types => some types
  | _ => none

/-- A record or a tuple, with the types of its fields. -/
@[elab_as_elim]
theorem Ty.fields_cases {motive : ∀ (ty : Ty) (types : List Ty), ty.fieldTypes = some types → Prop}
    (record : ∀ id name fields, motive (.record id name fields) (fields.map (·.2)) rfl)
    (tuple : ∀ id types, motive (.tuple id types) types rfl) {ty : Ty} {types : List Ty}
    (h : ty.fieldTypes = some types) : motive ty types h := by
  cases ty with
  | record id name fields => cases h; exact record id name fields
  | tuple id _ => cases h; exact tuple id types
  | _ => cases h

/-- A variant, an option or a result, with its arms. -/
@[elab_as_elim]
theorem Ty.arms_cases {motive : ∀ (ty : Ty) (arms : List (Option Ty)), ty.arms = some arms → Prop}
    (variant : ∀ id name cases, motive (.variant id name cases) (cases.map (·.2)) rfl)
    (option : ∀ id t, motive (.option id t) [none, some t] rfl)
    (result : ∀ id ok err, motive (.result id ok err) [ok, err] rfl) {ty : Ty}
    {arms : List (Option Ty)} (h : ty.arms = some arms) : motive ty arms h := by
  cases ty with
  | variant id name cases' => cases h; exact variant id name cases'
  | option id t => cases h; exact option id t
  | result id ok err => cases h; exact result id ok err
  | _ => cases h

/-- What a function does with the cases of a variant, it does with its arms. -/
theorem Ty.elim_cases {γ : Type} (cases : List (String × Option Ty)) (x : γ) (f : Ty → γ) :
    (cases.map fun c => match _h : c.2 with | none => x | some t => f t) =
      (cases.map (·.2)).map (·.elim x f) := by
  rw [List.map_map]
  refine List.map_congr_left fun c _ => ?_
  obtain ⟨n, o⟩ := c
  cases o <;> rfl

theorem Ty.map_cases {γ : Type} (cases : List (String × Option Ty)) (f : Ty → γ) :
    (cases.map fun c => match _h : c.2 with | none => none | some t => some (f t)) =
      (cases.map (·.2)).map fun o => o.map f :=
  (Ty.elim_cases ..).trans (List.map_congr_left fun o _ => by cases o <;> rfl)

/-- No type has both fields and cases. -/
theorem Ty.arms_of_fields {ty : Ty} {types : List Ty} (h : ty.fieldTypes = some types) :
    ty.arms = none := by
  cases ty with
  | record | tuple => rfl
  | _ => cases h

/-! ## Sizes of subtrees -/

theorem Ty.sizeOf_field {id : TypeId} {name : String} {fields : List (String × Ty)}
    {f : String × Ty} (h : f ∈ fields) : sizeOf f.2 < sizeOf (Ty.record id name fields) := by
  have h1 := List.sizeOf_lt_of_mem h
  obtain ⟨n, t⟩ := f
  simp only [Prod.mk.sizeOf_spec, Ty.record.sizeOf_spec] at *
  omega

theorem Ty.sizeOf_tuple {id : TypeId} {types : List Ty} {t : Ty} (h : t ∈ types) :
    sizeOf t < sizeOf (Ty.tuple id types) := by
  have h1 := List.sizeOf_lt_of_mem h
  simp only [Ty.tuple.sizeOf_spec] at *
  omega

theorem Ty.sizeOf_case {id : TypeId} {name n : String} {cases : List (String × Option Ty)}
    {t : Ty} (h : (n, some t) ∈ cases) : sizeOf t < sizeOf (Ty.variant id name cases) := by
  have h1 := List.sizeOf_lt_of_mem h
  simp only [Prod.mk.sizeOf_spec, Option.some.sizeOf_spec, Ty.variant.sizeOf_spec] at *
  omega

theorem Ty.sizeOf_arm {id : TypeId} {name : String} {cases : List (String × Option Ty)}
    {c : String × Option Ty} {t : Ty} (h : c ∈ cases) (ht : c.2 = some t) :
    sizeOf t < sizeOf (Ty.variant id name cases) := by
  obtain ⟨n, o⟩ := c
  subst ht
  exact Ty.sizeOf_case h

theorem Ty.sizeOf_fieldTypes {ty t : Ty} {types : List Ty} (h : ty.fieldTypes = some types)
    (ht : t ∈ types) : sizeOf t < sizeOf ty := by
  cases h using Ty.fields_cases with
  | record id name fields =>
    obtain ⟨f, hf, rfl⟩ := List.mem_map.mp ht
    exact Ty.sizeOf_field hf
  | tuple id types => exact Ty.sizeOf_tuple ht

theorem Ty.sizeOf_arms {ty t : Ty} {arms : List (Option Ty)} (h : ty.arms = some arms)
    (ht : some t ∈ arms) : sizeOf t < sizeOf ty := by
  cases h using Ty.arms_cases with
  | variant id name cases =>
    obtain ⟨c, hc, hct⟩ := List.mem_map.mp ht
    exact Ty.sizeOf_arm hc hct
  | option id payload =>
    obtain rfl : t = payload := by simpa using ht
    simp only [Ty.option.sizeOf_spec]
    omega
  | result id ok err =>
    rcases (by simpa using ht : some t = ok ∨ some t = err) with rfl | rfl
    · simp only [Ty.result.sizeOf_spec, Option.some.sizeOf_spec]
      omega
    · simp only [Ty.result.sizeOf_spec, Option.some.sizeOf_spec]
      omega

/-- Induction over type trees. Records and tuples are one case, and so are
variants, options and results. -/
@[elab_as_elim]
theorem Ty.ind {P : Ty → Prop}
    (prim : ∀ p, P (.prim p)) (string : P .string) (errorContext : P .errorContext)
    (type : ∀ id t, P t → P (.type id t))
    (list : ∀ id t, P t → P (.list id t))
    (map : ∀ id k v, P k → P v → P (.map id k v))
    (fixedLengthList : ∀ id t n, P t → P (.fixedLengthList id t n))
    (fields : ∀ ty types, ty.fieldTypes = some types → (∀ t ∈ types, P t) → P ty)
    (flags : ∀ id name names, P (.flags id name names))
    (arms : ∀ ty arms, ty.arms = some arms → (∀ t, some t ∈ arms → P t) → P ty)
    (enum : ∀ id name cases, P (.enum id name cases))
    (handle : ∀ id h name, P (.handle id h name))
    (future : ∀ id t, P (.future id t)) (stream : ∀ id t, P (.stream id t))
    (resource : ∀ id, P (.resource id)) (unknown : ∀ id, P (.unknown id)) :
    ∀ t, P t := by
  intro t
  induction hn : sizeOf t using Nat.strongRecOn generalizing t with
  | _ n ih =>
    subst hn
    have sub : ∀ s, sizeOf s < sizeOf t → P s := fun s hs => ih _ hs s rfl
    have whenFields : ∀ types, t.fieldTypes = some types → P t := fun types h =>
      fields t types h fun s hs => sub s (Ty.sizeOf_fieldTypes h hs)
    have whenArms : ∀ as, t.arms = some as → P t := fun as h =>
      arms t as h fun s hs => sub s (Ty.sizeOf_arms h hs)
    cases t with
    | prim p => exact prim p
    | string => exact string
    | errorContext => exact errorContext
    | type id t => exact type id t (sub t (by simp only [Ty.type.sizeOf_spec]; omega))
    | list id t => exact list id t (sub t (by simp only [Ty.list.sizeOf_spec]; omega))
    | map id k v =>
      exact map id k v (sub k (by simp only [Ty.map.sizeOf_spec]; omega))
        (sub v (by simp only [Ty.map.sizeOf_spec]; omega))
    | fixedLengthList id t n =>
      exact fixedLengthList id t n
        (sub t (by simp only [Ty.fixedLengthList.sizeOf_spec]; omega))
    | record id name fields => exact whenFields _ rfl
    | tuple id types => exact whenFields _ rfl
    | flags id name names => exact flags id name names
    | variant id name cases => exact whenArms _ rfl
    | enum id name cases => exact enum id name cases
    | option id t => exact whenArms _ rfl
    | result id ok err => exact whenArms _ rfl
    | handle id h name => exact handle id h name
    | future id t => exact future id t
    | stream id t => exact stream id t
    | resource id => exact resource id
    | unknown id => exact unknown id

/-! ## Which types the generator handles -/

/-- No `TypeDefKind::Resource` or `TypeDefKind::Unknown` is reached outside a
future's or stream's payload, and every variant and enum has few enough cases
for a discriminant. -/
inductive Ty.Supported : Ty → Prop where
  | prim (p) : Supported (.prim p)
  | string : Supported .string
  | errorContext : Supported .errorContext
  | type {id t} : Supported t → Supported (.type id t)
  | list {id t} : Supported t → Supported (.list id t)
  | map {id k v} : Supported k → Supported v → Supported (.map id k v)
  | fixedLengthList {id t n} : Supported t → Supported (.fixedLengthList id t n)
  | fields {ty types} : ty.fieldTypes = some types → (∀ t ∈ types, Supported t) →
      Supported ty
  | flags {id name names} : Supported (.flags id name names)
  | arms {ty arms} : ty.arms = some arms → arms.length ≤ 2 ^ 32 →
      (∀ t, some t ∈ arms → Supported t) → Supported ty
  | enum {id name cases} : cases.length ≤ 2 ^ 32 → Supported (.enum id name cases)
  | handle {id h name} : Supported (.handle id h name)
  | future {id t} : Supported (.future id t)
  | stream {id t} : Supported (.stream id t)

/-- What WIT asks of a type beyond that: a set of flags has a flag, a variant
and an enum have a case, and a fixed-length list has an element. -/
inductive Ty.Valid : Ty → Prop where
  | prim (p) : Valid (.prim p)
  | string : Valid .string
  | errorContext : Valid .errorContext
  | type {id t} : Valid t → Valid (.type id t)
  | list {id t} : Valid t → Valid (.list id t)
  | map {id k v} : Valid k → Valid v → Valid (.map id k v)
  | fixedLengthList {id t n} : 0 < n → Valid t → Valid (.fixedLengthList id t n)
  | fields {ty types} : ty.fieldTypes = some types → (∀ t ∈ types, Valid t) → Valid ty
  | flags {id name names} : names ≠ [] → Valid (.flags id name names)
  | arms {ty arms} : ty.arms = some arms → arms ≠ [] → arms.length ≤ 2 ^ 32 →
      (∀ t, some t ∈ arms → Valid t) → Valid ty
  | enum {id name cases} : cases ≠ [] → cases.length ≤ 2 ^ 32 →
      Valid (.enum id name cases)
  | handle {id h name} : Valid (.handle id h name)
  | future {id t} : Valid (.future id t)
  | stream {id t} : Valid (.stream id t)

theorem Ty.Valid.supported {ty : Ty} (h : ty.Valid) : ty.Supported := by
  induction h with
  | prim p => exact .prim p
  | string => exact .string
  | errorContext => exact .errorContext
  | type _ ih => exact .type ih
  | list _ ih => exact .list ih
  | map _ _ ihk ihv => exact .map ihk ihv
  | fixedLengthList _ _ ih => exact .fixedLengthList ih
  | fields h _ ih => exact .fields h ih
  | flags _ => exact .flags
  | arms h _ hlen _ ih => exact .arms h hlen ih
  | enum _ hlen => exact .enum hlen
  | handle => exact .handle
  | future => exact .future
  | stream => exact .stream

theorem Ty.Supported.of_fields {ty : Ty} {types : List Ty} (h : ty.Supported)
    (hf : ty.fieldTypes = some types) : ∀ t ∈ types, t.Supported := by
  cases h with
  | fields h' hs => cases h'.symm.trans hf; exact hs
  | arms h' => simp [Ty.arms_of_fields hf] at h'
  | _ => cases hf

theorem Ty.Supported.of_arms {ty : Ty} {arms : List (Option Ty)} (h : ty.Supported)
    (ha : ty.arms = some arms) : arms.length ≤ 2 ^ 32 ∧ ∀ t, some t ∈ arms → t.Supported := by
  cases h with
  | fields h' => simp [Ty.arms_of_fields h'] at ha
  | arms h' hlen hs => cases h'.symm.trans ha; exact ⟨hlen, hs⟩
  | _ => cases ha

theorem Ty.Valid.of_fields {ty : Ty} {types : List Ty} (h : ty.Valid)
    (hf : ty.fieldTypes = some types) : ∀ t ∈ types, t.Valid := by
  cases h with
  | fields h' hs => cases h'.symm.trans hf; exact hs
  | arms h' => simp [Ty.arms_of_fields hf] at h'
  | _ => cases hf

theorem Ty.Valid.of_arms {ty : Ty} {arms : List (Option Ty)} (h : ty.Valid)
    (ha : ty.arms = some arms) : arms ≠ [] ∧ ∀ t, some t ∈ arms → t.Valid := by
  cases h with
  | fields h' => simp [Ty.arms_of_fields h'] at ha
  | arms h' hne _ hs => cases h'.symm.trans ha; exact ⟨hne, hs⟩
  | _ => cases ha

/-! ## Values -/

/-- A value of a WIT type. A record or a tuple is the list of its members; an
option or a result is a variant with its cases numbered in order. Floats are
their bit patterns, and handles (own, borrow, future, stream, error context)
their table index. -/
inductive Val where
  | bool (b : Bool)
  | u8 (x : BitVec 8) | s8 (x : BitVec 8)
  | u16 (x : BitVec 16) | s16 (x : BitVec 16)
  | u32 (x : BitVec 32) | s32 (x : BitVec 32)
  | u64 (x : BitVec 64) | s64 (x : BitVec 64)
  | f32 (x : BitVec 32) | f64 (x : BitVec 64)
  | char (c : Char)
  | string (s : String)
  | list (vs : List Val)
  | map (es : List (Val × Val))
  | record (vs : List Val)
  | flags (bs : List Bool)
  | variant (i : Nat) (payload : Option Val)
  | enum (i : Nat)
  | handle (h : BitVec 32)

/-- The scalar values of a primitive type. -/
def Prim.Holds : Prim → Val → Prop
  | .bool, .bool _ | .u8, .u8 _ | .s8, .s8 _ | .u16, .u16 _ | .s16, .s16 _
  | .u32, .u32 _ | .s32, .s32 _ | .u64, .u64 _ | .s64, .s64 _
  | .f32, .f32 _ | .f64, .f64 _ | .char, .char _ => True
  | _, _ => False

/-- `Fits v t`: the value `v` has type `t`. -/
inductive Fits : Val → Ty → Prop where
  | prim {p v} : p.Holds v → Fits v (.prim p)
  | string {s} : Fits (.string s) .string
  | errorContext {h} : Fits (.handle h) .errorContext
  | type {id t v} : Fits v t → Fits v (.type id t)
  | list {id t vs} : (∀ v ∈ vs, Fits v t) → Fits (.list vs) (.list id t)
  | map {id k t es} : (∀ e ∈ es, Fits e.1 k) → (∀ e ∈ es, Fits e.2 t) →
      Fits (.map es) (.map id k t)
  | fixedLengthList {id t n vs} : vs.length = n → (∀ v ∈ vs, Fits v t) →
      Fits (.list vs) (.fixedLengthList id t n)
  | fields {ty types vs} : ty.fieldTypes = some types → vs.length = types.length →
      (∀ x ∈ types.zip vs, Fits x.2 x.1) → Fits (.record vs) ty
  | flags {id name names bs} : bs.length = names.length →
      Fits (.flags bs) (.flags id name names)
  | armNone {ty arms i} : ty.arms = some arms → arms[i]? = some none →
      Fits (.variant i none) ty
  | armSome {ty arms i t v} : ty.arms = some arms → arms[i]? = some (some t) →
      Fits v t → Fits (.variant i (some v)) ty
  | enum {id name cases i} : i < cases.length → Fits (.enum i) (.enum id name cases)
  | handle {id h name x} : Fits (.handle x) (.handle id h name)
  | future {id t x} : Fits (.handle x) (.future id t)
  | stream {id t x} : Fits (.handle x) (.stream id t)

/-! ## Inversion -/

theorem Ty.Supported.of_type {id : TypeId} {t : Ty} (h : (Ty.type id t).Supported) :
    t.Supported := by
  cases h with
  | type h => exact h
  | fields h | arms h => cases h

theorem Ty.Supported.of_list {id : TypeId} {t : Ty} (h : (Ty.list id t).Supported) :
    t.Supported := by
  cases h with
  | list h => exact h
  | fields h | arms h => cases h

theorem Ty.Supported.of_map {id : TypeId} {k t : Ty} (h : (Ty.map id k t).Supported) :
    k.Supported ∧ t.Supported := by
  cases h with
  | map hk ht => exact ⟨hk, ht⟩
  | fields h | arms h => cases h

theorem Ty.Supported.of_fixedLengthList {id : TypeId} {t : Ty} {n : Nat}
    (h : (Ty.fixedLengthList id t n).Supported) : t.Supported := by
  cases h with
  | fixedLengthList h => exact h
  | fields h | arms h => cases h

theorem Ty.Supported.of_enum {id : TypeId} {name : String} {cases' : List String}
    (h : (Ty.enum id name cases').Supported) : cases'.length ≤ 2 ^ 32 := by
  cases h with
  | enum h => exact h
  | fields h | arms h => cases h

theorem Ty.not_supported_resource {id : TypeId} : ¬ (Ty.resource id).Supported := by
  intro h
  cases h with
  | fields h | arms h => cases h

theorem Ty.not_supported_unknown {id : TypeId} : ¬ (Ty.unknown id).Supported := by
  intro h
  cases h with
  | fields h | arms h => cases h

theorem Ty.Valid.of_type {id : TypeId} {t : Ty} (h : (Ty.type id t).Valid) : t.Valid := by
  cases h with
  | type h => exact h
  | fields h | arms h => cases h

theorem Ty.Valid.of_list {id : TypeId} {t : Ty} (h : (Ty.list id t).Valid) : t.Valid := by
  cases h with
  | list h => exact h
  | fields h | arms h => cases h

theorem Ty.Valid.of_map {id : TypeId} {k t : Ty} (h : (Ty.map id k t).Valid) :
    k.Valid ∧ t.Valid := by
  cases h with
  | map hk ht => exact ⟨hk, ht⟩
  | fields h | arms h => cases h

theorem Ty.Valid.of_fixedLengthList {id : TypeId} {t : Ty} {n : Nat}
    (h : (Ty.fixedLengthList id t n).Valid) : 0 < n ∧ t.Valid := by
  cases h with
  | fixedLengthList hn h => exact ⟨hn, h⟩
  | fields h | arms h => cases h

theorem Fits.of_prim {v : Val} {q : Prim} (h : Fits v (.prim q)) : q.Holds v := by
  cases h with
  | prim h => exact h
  | fields h | armNone h | armSome h => cases h

theorem Fits.of_string {v : Val} (h : Fits v .string) : ∃ s, v = .string s := by
  cases h with
  | string => exact ⟨_, rfl⟩
  | fields h | armNone h | armSome h => cases h

theorem Fits.of_errorContext {v : Val} (h : Fits v .errorContext) : ∃ x, v = .handle x := by
  cases h with
  | errorContext => exact ⟨_, rfl⟩
  | fields h | armNone h | armSome h => cases h

theorem Fits.of_type {v : Val} {id : TypeId} {t : Ty} (h : Fits v (.type id t)) :
    Fits v t := by
  cases h with
  | type h => exact h
  | fields h | armNone h | armSome h => cases h

theorem Fits.of_list {v : Val} {id : TypeId} {t : Ty} (h : Fits v (.list id t)) :
    ∃ vs, v = .list vs ∧ ∀ x ∈ vs, Fits x t := by
  cases h with
  | list h => exact ⟨_, rfl, h⟩
  | fields h | armNone h | armSome h => cases h

theorem Fits.of_map {v : Val} {id : TypeId} {k t : Ty} (h : Fits v (.map id k t)) :
    ∃ es, v = .map es ∧ ∀ e ∈ es, Fits e.1 k ∧ Fits e.2 t := by
  cases h with
  | map hk ht => exact ⟨_, rfl, fun e he => ⟨hk e he, ht e he⟩⟩
  | fields h | armNone h | armSome h => cases h

theorem Fits.of_fixedLengthList {v : Val} {id : TypeId} {t : Ty} {n : Nat}
    (h : Fits v (.fixedLengthList id t n)) :
    ∃ vs, v = .list vs ∧ vs.length = n ∧ ∀ x ∈ vs, Fits x t := by
  cases h with
  | fixedLengthList hlen h => exact ⟨_, rfl, hlen, h⟩
  | fields h | armNone h | armSome h => cases h

theorem Fits.of_flags {v : Val} {id : TypeId} {name : String} {names : List String}
    (h : Fits v (.flags id name names)) : ∃ bs, v = .flags bs ∧ bs.length = names.length := by
  cases h with
  | flags h => exact ⟨_, rfl, h⟩
  | fields h | armNone h | armSome h => cases h

theorem Fits.of_enum {v : Val} {id : TypeId} {name : String} {cases' : List String}
    (h : Fits v (.enum id name cases')) : ∃ i, v = .enum i ∧ i < cases'.length := by
  cases h with
  | enum h => exact ⟨_, rfl, h⟩
  | fields h | armNone h | armSome h => cases h

theorem Fits.of_handle {v : Val} {id : TypeId} {hd : Handle} {name : String}
    (h : Fits v (.handle id hd name)) : ∃ x, v = .handle x := by
  cases h with
  | handle => exact ⟨_, rfl⟩
  | fields h | armNone h | armSome h => cases h

theorem Fits.of_future {v : Val} {id : TypeId} {t : Option Ty} (h : Fits v (.future id t)) :
    ∃ x, v = .handle x := by
  cases h with
  | future => exact ⟨_, rfl⟩
  | fields h | armNone h | armSome h => cases h

theorem Fits.of_stream {v : Val} {id : TypeId} {t : Option Ty} (h : Fits v (.stream id t)) :
    ∃ x, v = .handle x := by
  cases h with
  | stream => exact ⟨_, rfl⟩
  | fields h | armNone h | armSome h => cases h

end WitBindgen
