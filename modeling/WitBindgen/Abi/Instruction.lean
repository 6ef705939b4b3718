import WitBindgen.Wit.Parser

/-!
# The instruction set of the ABI generator

`Instruction` with the number of operands it pops and results it pushes, and
`Bitcast` with `cast`, which picks the one that moves a value between two core
types.
-/

namespace WitBindgen

/-! ## Bitcasts -/

inductive Bitcast where
  -- upcasts
  | f32ToI32 | f64ToI64 | i32ToI64 | f32ToI64
  -- downcasts
  | i32ToF32 | i64ToF64 | i64ToI32 | i64ToF32
  -- `PointerOrI64` conversions, which keep provenance
  | p64ToI64 | i64ToP64 | p64ToP | pToP64
  -- pointer and length conversions, which do not
  | i32ToP | pToI32 | pToL | lToP
  | i32ToL | lToI32 | i64ToL | lToI64
  | sequence (first second : Bitcast)
  | none
deriving DecidableEq

/-- The bitcast that moves a value of flat type `src` into flat type `dst`, or
`none` where `cast` reaches its `unreachable!`. Two of the recursive calls go
through `I64` and two through `I32`; each is written out as the entry of the
table it reaches. -/
def cast (src dst : WasmType) : Option Bitcast :=
  match src, dst with
  | .i32, .i32 | .i64, .i64 | .f32, .f32 | .f64, .f64 | .pointer, .pointer
  | .pointerOrI64, .pointerOrI64 | .length, .length => some .none
  | .i32, .i64 => some .i32ToI64
  | .f32, .i32 => some .f32ToI32
  | .f64, .i64 => some .f64ToI64
  | .i64, .i32 => some .i64ToI32
  | .i32, .f32 => some .i32ToF32
  | .i64, .f64 => some .i64ToF64
  | .f32, .i64 => some .f32ToI64
  | .i64, .f32 => some .i64ToF32
  | .i64, .pointerOrI64 => some .i64ToP64
  | .pointer, .pointerOrI64 => some .pToP64
  -- `Sequence([cast(from, I64), cast(I64, PointerOrI64)])`
  | .i32, .pointerOrI64 => some (.sequence .i32ToI64 .i64ToP64)
  | .f32, .pointerOrI64 => some (.sequence .f32ToI64 .i64ToP64)
  | .f64, .pointerOrI64 => some (.sequence .f64ToI64 .i64ToP64)
  | .length, .pointerOrI64 => some (.sequence .lToI64 .i64ToP64)
  | .pointerOrI64, .i64 => some .p64ToI64
  | .pointerOrI64, .pointer => some .p64ToP
  -- `Sequence([cast(PointerOrI64, I64), cast(I64, to)])`
  | .pointerOrI64, .i32 => some (.sequence .p64ToI64 .i64ToI32)
  | .pointerOrI64, .f32 => some (.sequence .p64ToI64 .i64ToF32)
  | .pointerOrI64, .f64 => some (.sequence .p64ToI64 .i64ToF64)
  | .pointerOrI64, .length => some (.sequence .p64ToI64 .i64ToL)
  | .i32, .pointer => some .i32ToP
  | .pointer, .i32 => some .pToI32
  | .i32, .length => some .i32ToL
  | .length, .i32 => some .lToI32
  | .i64, .length => some .i64ToL
  | .length, .i64 => some .lToI64
  | .pointer, .length => some .pToL
  | .length, .pointer => some .lToP
  -- `Sequence([cast(F32, I32), cast(I32, to)])` and its converse
  | .f32, .pointer => some (.sequence .f32ToI32 .i32ToP)
  | .f32, .length => some (.sequence .f32ToI32 .i32ToL)
  | .pointer, .f32 => some (.sequence .pToI32 .i32ToF32)
  | .length, .f32 => some (.sequence .lToI32 .i32ToF32)
  | .f32, .f64 | .f64, .f32 | .f64, .i32 | .i32, .f64
  | .pointer, .i64 | .pointer, .f64 | .length, .f64
  | .i64, .pointer | .f64, .pointer | .f64, .length => none

/-! ## Instructions -/

inductive Instruction where
  | getArg (nth : Nat)
  | i32Const (val : BitVec 32)
  | bitcasts (casts : List Bitcast)
  | constZero (tys : List WasmType)
  -- loads and stores
  | i32Load (offset : ArchitectureSize)
  | i32Load8U (offset : ArchitectureSize)
  | i32Load8S (offset : ArchitectureSize)
  | i32Load16U (offset : ArchitectureSize)
  | i32Load16S (offset : ArchitectureSize)
  | i64Load (offset : ArchitectureSize)
  | f32Load (offset : ArchitectureSize)
  | f64Load (offset : ArchitectureSize)
  | pointerLoad (offset : ArchitectureSize)
  | lengthLoad (offset : ArchitectureSize)
  | i32Store (offset : ArchitectureSize)
  | i32Store8 (offset : ArchitectureSize)
  | i32Store16 (offset : ArchitectureSize)
  | i64Store (offset : ArchitectureSize)
  | f32Store (offset : ArchitectureSize)
  | f64Store (offset : ArchitectureSize)
  | pointerStore (offset : ArchitectureSize)
  | lengthStore (offset : ArchitectureSize)
  -- scalars
  | i32FromChar | i64FromU64 | i64FromS64 | i32FromU32 | i32FromS32 | i32FromU16
  | i32FromS16 | i32FromU8 | i32FromS8 | coreF32FromF32 | coreF64FromF64
  | s8FromI32 | u8FromI32 | s16FromI32 | u16FromI32 | s32FromI32 | u32FromI32
  | s64FromI64 | u64FromI64 | charFromI32 | f32FromCoreF32 | f64FromCoreF64
  | boolFromI32 | i32FromBool
  -- lists, strings, maps and fixed-length lists
  | listCanonLower (element : Ty) (realloc : Option String)
  | stringLower (realloc : Option String)
  | listLower (element : Ty) (realloc : Option String)
  | listCanonLift (element : Ty) (ty : TypeId)
  | stringLift
  | listLift (element : Ty) (ty : TypeId)
  | mapLower (key value : Ty) (realloc : Option String)
  | mapLift (key value : Ty) (ty : TypeId)
  | fixedLengthListLift (element : Ty) (size : Nat) (id : TypeId)
  | fixedLengthListLower (element : Ty) (size : Nat) (id : TypeId)
  | fixedLengthListLowerToMemory (element : Ty) (size : Nat) (id : TypeId)
  | fixedLengthListLiftFromMemory (element : Ty) (size : Nat) (id : TypeId)
  | iterElem (element : Ty)
  | iterMapKey (key : Ty)
  | iterMapValue (value : Ty)
  | iterBasePointer
  -- records, tuples, handles, flags
  | recordLower (record : List (String × Ty)) (name : String) (ty : TypeId)
  | recordLift (record : List (String × Ty)) (name : String) (ty : TypeId)
  | handleLower (handle : Handle) (name : String) (ty : TypeId)
  | handleLift (handle : Handle) (name : String) (ty : TypeId)
  | futureLower (payload : Option Ty) (ty : TypeId)
  | futureLift (payload : Option Ty) (ty : TypeId)
  | streamLower (payload : Option Ty) (ty : TypeId)
  | streamLift (payload : Option Ty) (ty : TypeId)
  | errorContextLower
  | errorContextLift
  | tupleLower (tuple : List Ty) (ty : TypeId)
  | tupleLift (tuple : List Ty) (ty : TypeId)
  | flagsLower (flags : List String) (name : String) (ty : TypeId)
  | flagsLift (flags : List String) (name : String) (ty : TypeId)
  -- variants
  | variantPayloadName
  | variantLower (variant : List (String × Option Ty)) (name : String) (ty : TypeId)
      (results : List WasmType)
  | variantLift (variant : List (String × Option Ty)) (name : String) (ty : TypeId)
  | enumLower (enum_ : List String) (name : String) (ty : TypeId)
  | enumLift (enum_ : List String) (name : String) (ty : TypeId)
  | optionLower (payload : Ty) (ty : TypeId) (results : List WasmType)
  | optionLift (payload : Ty) (ty : TypeId)
  | resultLower (ok err : Option Ty) (ty : TypeId) (results : List WasmType)
  | resultLift (ok err : Option Ty) (ty : TypeId)
  -- calls and control
  | callWasm (name : String) (sig : WasmSignature)
  | callInterface (func : Function) (async_ : Bool)
  | return_ (amt : Nat) (func : Function)
  | malloc (realloc : String) (size : ArchitectureSize) (align : Alignment)
  | guestDeallocate (size : ArchitectureSize) (align : Alignment)
  | guestDeallocateString
  | guestDeallocateList (element : Ty)
  | guestDeallocateMap (key value : Ty)
  | guestDeallocateVariant (blocks : Nat)
  | dropHandle (ty : Ty)
  | asyncTaskReturn (name : String) (params : List WasmType)
  | flush (amt : Nat)

namespace Instruction

/-- How many operands the instruction pops. `W` supplies `Flags::repr`. -/
def operandsLen (W : WitParser) : Instruction → Nat
  | getArg _ | i32Const _ | constZero _ | iterElem _ | iterMapKey _ | iterMapValue _
  | iterBasePointer | variantPayloadName | malloc _ _ _ => 0
  | bitcasts casts => casts.length
  | i32Store _ | i32Store8 _ | i32Store16 _ | i64Store _ | f32Store _ | f64Store _
  | pointerStore _ | lengthStore _ => 2
  | listCanonLift _ _ | stringLift | listLift _ _ | mapLift _ _ _ => 2
  | fixedLengthListLift _ size _ => size
  | fixedLengthListLowerToMemory _ _ _ => 2
  | recordLift record _ _ => record.length
  | tupleLift tuple _ => tuple.length
  | flagsLift flags _ _ => (W.flagsRepr flags.length).count
  | callWasm _ sig => sig.params.length
  | callInterface func _ => func.params.length
  | return_ amt _ => amt
  | guestDeallocateString | guestDeallocateList _ | guestDeallocateMap _ _ => 2
  | asyncTaskReturn _ params => params.length
  | flush amt => amt
  | _ => 1

/-- How many results the instruction pushes. -/
def resultsLen (W : WitParser) : Instruction → Nat
  | bitcasts casts => casts.length
  | constZero tys => tys.length
  | i32Store _ | i32Store8 _ | i32Store16 _ | i64Store _ | f32Store _ | f64Store _
  | pointerStore _ | lengthStore _ => 0
  | listCanonLower _ _ | stringLower _ | listLower _ _ | mapLower _ _ _ => 2
  | fixedLengthListLower _ size _ => size
  | fixedLengthListLowerToMemory _ _ _ => 0
  | recordLower record _ _ => record.length
  | tupleLower tuple _ => tuple.length
  | flagsLower flags _ _ => (W.flagsRepr flags.length).count
  | variantLower _ _ _ results | optionLower _ _ results | resultLower _ _ _ results =>
    results.length
  | callWasm _ sig => sig.results.length
  | callInterface func _ => if func.result.isSome then 1 else 0
  | return_ _ _ | guestDeallocate _ _ | guestDeallocateString | guestDeallocateList _
  | guestDeallocateMap _ _ | guestDeallocateVariant _ | dropHandle _
  | asyncTaskReturn _ _ => 0
  | flush amt => amt
  | _ => 1

/-- The blocks the instruction takes from the block stack, each with the number
of results it is expected to be finished with. -/
def blockResults : Instruction → List Nat
  | listLower _ _ | mapLower _ _ _ | fixedLengthListLowerToMemory _ _ _ => [0]
  | listLift _ _ | fixedLengthListLiftFromMemory _ _ _ => [1]
  | mapLift _ _ _ => [2]
  | variantLower cases _ _ results => List.replicate cases.length results.length
  | optionLower _ _ results | resultLower _ _ _ results =>
    [results.length, results.length]
  | variantLift cases _ _ => cases.map fun c => if c.2.isSome then 1 else 0
  | optionLift _ _ => [0, 1]
  | resultLift ok err _ => [if ok.isSome then 1 else 0, if err.isSome then 1 else 0]
  | guestDeallocateList _ | guestDeallocateMap _ _ => [0]
  | guestDeallocateVariant blocks => List.replicate blocks 0
  | _ => []

end Instruction

end WitBindgen
