import WitBindgen.Library.CStruct
import WitBindgen.Wit.Canonical

/-!
# The typedefs of the C generator

`type_record`, `type_variant` and their siblings print a typedef for every
named type, and the `anonymous_type_*` functions the same for the types without
a name. `decl` is the C type that is printed, with the typedefs it refers to
written out; it is `none` where the generator panics.
-/

namespace WitBindgen.C

open CStruct

/-! ## Scalars -/

/-- The scalar types of C that the generator names. -/
inductive Scalar where
  | bool | uint8 | int8 | uint16 | int16 | uint32 | int32 | uint64 | int64 | float | double | size
deriving DecidableEq

/-- Their sizes on wasm32, which are their alignments as well. -/
def Scalar.bytes : Scalar → Nat
  | .bool | .uint8 | .int8 => 1
  | .uint16 | .int16 => 2
  | .uint32 | .int32 | .float | .size => 4
  | .uint64 | .int64 | .double => 8

def Scalar.decl (s : Scalar) : Decl := .scalar s.bytes

/-- `push_type_name` of a primitive type. -/
def pushTypeName : Prim → Scalar
  | .bool => .bool
  | .char => .uint32
  | .u8 => .uint8
  | .s8 => .int8
  | .u16 => .uint16
  | .s16 => .int16
  | .u32 => .uint32
  | .s32 => .int32
  | .u64 => .uint64
  | .s64 => .int64
  | .f32 => .float
  | .f64 => .double

/-- `int_repr`. -/
def intRepr : IntRepr → Scalar
  | .u8 => .uint8
  | .u16 => .uint16
  | .u32 => .uint32
  | .u64 => .uint64

/-- `flags_repr`: other representations are not implemented. -/
def flagsRepr (flags : Nat) : Option IntRepr :=
  match flagsReprOf flags with
  | .u8 => some .u8
  | .u16 => some .u16
  | .u32 1 => some .u32
  | .u32 2 => some .u64
  | .u32 _ => none

/-! ## Typedefs -/

/-- `{ T *ptr; size_t len; }`. -/
def bufferDecl (element : Decl) : Decl :=
  .struct [("ptr", .pointer (some element)), ("len", Scalar.size.decl)]

/-- The entry struct of a map. -/
def entryDecl (key value : Decl) : Decl := .struct [("key", key), ("value", value)]

/-- All of them, if none of them panics. -/
def collect {α : Type} (xs : List (Option α)) : Option (List α) := xs.mapM id

/-- The tag of a struct with cases, and the union of those that have data. -/
def taggedDecl (tagName : String) (tag : Scalar) (cases : List (String × Decl)) : Decl :=
  .struct ((tagName, tag.decl) ::
    if cases.isEmpty then [] else [("val", .union cases)])

section

-- the resources that the component itself exports
variable (exported : TypeId → Bool)

def handleDecl : Handle → Decl
  | .own _ => .struct [("__handle", Scalar.int32.decl)]
  | .borrow r =>
    -- the borrow of an exported resource is the pointer the user gave out
    if exported r then .pointer none else .struct [("__handle", Scalar.int32.decl)]

def decl : Ty → Option Decl
  | .prim q => some (pushTypeName q).decl
  | .string => some (bufferDecl Scalar.uint8.decl)
  | .errorContext => none
  | .type _ t => decl t
  | .list _ t => (decl t).map bufferDecl
  | .map _ k v => do
      let key ← decl k
      let value ← decl v
      pure (bufferDecl (entryDecl key value))
  | .fixedLengthList _ _ _ => none
  | .record _ _ fields => do
      let ms ← collect (fields.map fun f => decl f.2)
      pure (.struct ((fields.map fun f => f.1).zip ms))
  | .tuple _ types => do
      let ms ← collect (types.map fun t => decl t)
      pure (.struct (ms.mapIdx fun i m => (s!"f{i}", m)))
  | .flags _ _ names => (flagsRepr names.length).map fun repr => (intRepr repr).decl
  | .variant _ _ cases => do
      let ms ← collect (cases.map fun c => match _h : c.2 with
        | none => some none
        | some t => (decl t).map fun d => some (c.1, d))
      pure (taggedDecl "tag" (intRepr (tagOf cases.length)) ms.reduceOption)
  | .enum _ _ cases => some (intRepr (tagOf cases.length)).decl
  | .option _ t => (decl t).map fun d =>
    .struct [("is_some", Scalar.bool.decl), ("val", d)]
  | .result _ ok err => do
      let ms ← collect
        [match ok with | none => some none | some t => (decl t).map fun d => some ("ok", d),
         match err with | none => some none | some t => (decl t).map fun d => some ("err", d)]
      pure (taggedDecl "is_err" Scalar.bool ms.reduceOption)
  | .handle _ h _ => some (handleDecl exported h)
  | .future _ _ => some Scalar.uint32.decl
  | .stream _ _ => some Scalar.uint32.decl
  | .resource _ => none
  | .unknown _ => none
termination_by t => sizeOf t
decreasing_by
  all_goals first
    | decreasing_tactic
    | with_reducible exact Ty.sizeOf_field ‹_›
    | with_reducible exact Ty.sizeOf_tuple ‹_›
    | with_reducible exact Ty.sizeOf_arm ‹_› ‹_›

end

end WitBindgen.C
