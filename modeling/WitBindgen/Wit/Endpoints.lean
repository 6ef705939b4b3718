import Mathlib.Data.List.ReduceOption
import WitBindgen.Wit.Ty

/-!
# Futures and streams in a type

`endpoints` lists the futures and streams of a type that lie outside the payload of any
other, from left to right, and `allEndpoints` lists all of them in post-order: those of a
payload come before the future or the stream they are the payload of.
-/

namespace WitBindgen

inductive PayloadFor where
  | future | stream
deriving DecidableEq

/-- A future or a stream, with the `TypeId` it has and what it carries. -/
structure Endpoint where
  kind : PayloadFor
  ty : TypeId
  payload : Option Ty

namespace Ty

/-- The types a type is made of, in the order in which they are visited. What a future or a
stream carries is no part of it. -/
def children (ty : Ty) : List Ty :=
  match ty with
  | .type _ t | .list _ t | .fixedLengthList _ t _ => [t]
  | .map _ k v => [k, v]
  | _ => match ty.fieldTypes, ty.arms with
    | some types, _ => types
    | none, some arms => arms.reduceOption
    | none, none => []

theorem children_fields {ty : Ty} {types : List Ty} (h : ty.fieldTypes = some types) :
    ty.children = types := by
  cases h using fields_cases <;> rfl

theorem children_arms {ty : Ty} {arms : List (Option Ty)} (h : ty.arms = some arms) :
    ty.children = arms.reduceOption := by
  cases h using arms_cases <;> rfl

theorem sizeOf_children {ty t : Ty} (h : t ∈ ty.children) : sizeOf t < sizeOf ty := by
  have hfields : ∀ types, ty.fieldTypes = some types → sizeOf t < sizeOf ty := fun types hf =>
    sizeOf_fieldTypes hf (children_fields hf ▸ h)
  have harms : ∀ arms, ty.arms = some arms → sizeOf t < sizeOf ty := fun arms ha =>
    sizeOf_arms ha (List.reduceOption_mem_iff.1 (children_arms ha ▸ h))
  cases ty with
  | type id u | list id u | fixedLengthList id u n =>
    obtain rfl := List.mem_singleton.mp h
    simp only [type.sizeOf_spec, list.sizeOf_spec, fixedLengthList.sizeOf_spec]
    omega
  | map id k v =>
    rcases List.mem_pair.mp h with rfl | rfl <;> simp only [map.sizeOf_spec] <;> omega
  | record | tuple => exact hfields _ rfl
  | variant | option | result => exact harms _ rfl
  | _ => cases h

def endpoint? : Ty → Option Endpoint
  | .future id p => some ⟨.future, id, p⟩
  | .stream id p => some ⟨.stream, id, p⟩
  | _ => none

theorem endpoint?_fields {ty : Ty} {types : List Ty} (h : ty.fieldTypes = some types) :
    ty.endpoint? = none := by
  cases h using fields_cases <;> rfl

theorem endpoint?_arms {ty : Ty} {arms : List (Option Ty)} (h : ty.arms = some arms) :
    ty.endpoint? = none := by
  cases h using arms_cases <;> rfl

theorem sizeOf_endpoint {ty : Ty} {e : Endpoint} (h : ty.endpoint? = some e) :
    sizeOf e.payload < sizeOf ty := by
  cases ty with
  | future id p | stream id p =>
    cases h
    simp only [future.sizeOf_spec, stream.sizeOf_spec]
    omega
  | _ => cases h

theorem sizeOf_payload {ty t : Ty} {e : Endpoint} (h : ty.endpoint? = some e)
    (ht : e.payload = some t) : sizeOf t < sizeOf ty := by
  have hlt := sizeOf_endpoint h
  rw [ht, Option.some.sizeOf_spec] at hlt
  omega

def endpoints (ty : Ty) : List Endpoint :=
  match ty.endpoint? with
  | some e => [e]
  | none => (ty.children.attach.map fun t => endpoints t.1).flatten
termination_by sizeOf ty
decreasing_by exact sizeOf_children t.2

def allEndpoints (ty : Ty) : List Endpoint :=
  match _h : ty.endpoint? with
  | some e =>
    (match _ht : e.payload with
    | some t => allEndpoints t
    | none => []) ++ [e]
  | none => (ty.children.attach.map fun t => allEndpoints t.1).flatten
termination_by sizeOf ty
decreasing_by
  · exact sizeOf_payload ‹_› ‹_›
  · exact sizeOf_children t.2

end Ty

/-- The futures and streams in the payload of one. -/
def Endpoint.nested (e : Endpoint) : List Endpoint := e.payload.elim [] Ty.allEndpoints

namespace Ty

variable {ty : Ty} {e : Endpoint}

theorem endpoints_self (h : ty.endpoint? = some e) : ty.endpoints = [e] := by
  rw [endpoints, h]

theorem endpoints_children (h : ty.endpoint? = none) : ty.endpoints = ty.children.flatMap endpoints := by
  rw [endpoints, h, List.attach_map_val, List.flatMap_def]

theorem allEndpoints_self (h : ty.endpoint? = some e) : ty.allEndpoints = e.nested ++ [e] := by
  rw [allEndpoints]
  split
  · next e' h' =>
      obtain rfl := Option.some.inj (h.symm.trans h')
      rw [Endpoint.nested]
      cases e.payload <;> rfl
  · next h' => cases h.symm.trans h'

theorem allEndpoints_children (h : ty.endpoint? = none) :
    ty.allEndpoints = ty.children.flatMap allEndpoints := by
  rw [allEndpoints]
  split
  · next h' => cases h.symm.trans h'
  · rw [List.attach_map_val, List.flatMap_def]

theorem endpoints_fields {types : List Ty} (h : ty.fieldTypes = some types) :
    ty.endpoints = types.flatMap endpoints := by
  rw [← children_fields h]
  exact endpoints_children (endpoint?_fields h)

theorem endpoints_arms {arms : List (Option Ty)} (h : ty.arms = some arms) :
    ty.endpoints = arms.flatMap (·.elim [] endpoints) := by
  have hparts : ty.endpoints = arms.reduceOption.flatMap endpoints := by
    rw [← children_arms h]
    exact endpoints_children (endpoint?_arms h)
  rw [hparts]
  clear h hparts
  induction arms with
  | nil => rfl
  | cons o arms ih =>
    cases o with
    | none => rw [List.reduceOption_cons_of_none, ih]; rfl
    | some t => rw [List.reduceOption_cons_of_some, List.flatMap_cons, List.flatMap_cons, ih]; rfl

/-- Induction over parts and payloads. -/
@[elab_as_elim]
theorem by_children {P : Ty → Prop}
    (endpoint : ∀ ty e, ty.endpoint? = some e → (∀ t, e.payload = some t → P t) → P ty)
    (children : ∀ ty, ty.endpoint? = none → (∀ t ∈ ty.children, P t) → P ty) : ∀ ty, P ty := by
  intro ty
  induction hn : sizeOf ty using Nat.strongRecOn generalizing ty with
  | _ n ih =>
    subst hn
    cases hty : ty.endpoint? with
    | some e => exact endpoint ty e hty fun t ht => ih _ (sizeOf_payload hty ht) t rfl
    | none => exact children ty hty fun t ht => ih _ (sizeOf_children ht) t rfl

/-- In post-order, each outermost future or stream comes after what is in its payload. -/
theorem allEndpoints_eq (ty : Ty) :
    ty.allEndpoints = ty.endpoints.flatMap fun e => e.nested ++ [e] := by
  induction ty using by_children with
  | endpoint ty e hty _ => rw [allEndpoints_self hty, endpoints_self hty, List.flatMap_singleton]
  | children ty hty ih =>
    rw [allEndpoints_children hty, endpoints_children hty, List.flatMap_assoc]
    exact List.flatMap_congr ih

theorem sizeOf_allEndpoints (ty : Ty) : ∀ e ∈ ty.allEndpoints, sizeOf e.payload < sizeOf ty := by
  induction ty using by_children with
  | endpoint ty e hty ih =>
    intro e' he
    rw [allEndpoints_self hty, Endpoint.nested] at he
    rcases List.mem_append.mp he with he | he
    · cases hp : e.payload with
      | none => rw [hp] at he; cases he
      | some t =>
        rw [hp] at he
        exact Nat.lt_trans (ih t hp e' he) (sizeOf_payload hty hp)
    · rw [List.mem_singleton.mp he]
      exact sizeOf_endpoint hty
  | children ty hty ih =>
    intro e he
    rw [allEndpoints_children hty] at he
    obtain ⟨t, ht, he⟩ := List.mem_flatMap.mp he
    exact Nat.lt_trans (ih t ht e he) (sizeOf_children ht)

end Ty

/-- Nothing in the payload of a future or a stream carries as much as it does. -/
theorem Endpoint.sizeOf_nested {e e' : Endpoint} (h : e' ∈ e.nested) :
    sizeOf e'.payload < sizeOf e.payload := by
  rw [nested] at h
  cases hp : e.payload with
  | none => rw [hp] at h; cases h
  | some t =>
    rw [hp] at h
    rw [Option.some.sizeOf_spec]
    have hlt := Ty.sizeOf_allEndpoints t e' h
    omega

end WitBindgen
