import WitBindgen.Wit.Ty

/-!
# The arena of type definitions

A `Resolve` owns its type definitions in an arena and refers to them by
`TypeId`. WIT has no recursive types, so the ids can be ranked: a definition
refers to ids of lower rank only.
-/

namespace WitBindgen

/-- `wit_parser::Type`. -/
inductive TypeRef where
  | prim (p : Prim)
  | string
  | errorContext
  | id (id : TypeId)
deriving DecidableEq

inductive TypeDefKind where
  | record (fields : List (String × TypeRef))
  | resource
  | handle (handle : Handle)
  | flags (flags : List String)
  | tuple (types : List TypeRef)
  | variant (cases : List (String × Option TypeRef))
  | enum (cases : List String)
  | option (payload : TypeRef)
  | result (ok err : Option TypeRef)
  | list (element : TypeRef)
  | map (key value : TypeRef)
  | fixedLengthList (element : TypeRef) (size : Nat)
  | future (payload : Option TypeRef)
  | stream (payload : Option TypeRef)
  | type (t : TypeRef)
  | unknown
deriving DecidableEq

def Handle.resource : Handle → TypeId
  | .own r | .borrow r => r

def Handle.isOwn : Handle → Bool
  | .own _ => true
  | .borrow _ => false

/-- The types a definition refers to. -/
def TypeDefKind.components : TypeDefKind → List TypeRef
  | .record fields => fields.map (·.2)
  | .resource | .flags _ | .enum _ | .unknown => []
  | .handle h => [.id h.resource]
  | .tuple types => types
  | .variant cases => cases.flatMap fun c => c.2.toList
  | .option t | .list t | .fixedLengthList t _ | .type t => [t]
  | .result ok err => ok.toList ++ err.toList
  | .map k v => [k, v]
  | .future t | .stream t => t.toList

structure Resolve where
  types : TypeId → TypeDefKind
  rank : TypeId → Nat
  rank_lt : ∀ i j, .id j ∈ (types i).components → rank j < rank i
  /-- Placeholders are gone once parsing is done. -/
  known : ∀ i, types i ≠ .unknown

namespace Resolve

variable (r : Resolve)

/-- How deep the definitions below a type can be nested. -/
def weight : TypeRef → Nat
  | .id i => r.rank i + 1
  | _ => 0

theorem weight_lt {i : TypeId} {t : TypeRef} (h : t ∈ (r.types i).components) :
    r.weight t < r.weight (.id i) := by
  cases t with
  | id j => exact Nat.succ_lt_succ (r.rank_lt i j h)
  | _ => exact Nat.succ_pos _

/-- A component of the definition `k` of `i`. -/
theorem weight_lt_of {i : TypeId} {k : TypeDefKind} {t : TypeRef} (hk : r.types i = k)
    (h : t ∈ k.components) : r.weight t < r.weight (.id i) := r.weight_lt (hk ▸ h)

end Resolve

end WitBindgen
