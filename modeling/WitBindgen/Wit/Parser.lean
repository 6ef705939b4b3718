import WitBindgen.Wit.Ty
import Mathlib.Tactic.Common

/-!
# What the generator uses of the WIT parser

`wit-parser` is a crate of its own. The model takes what `abi.rs` asks it for
as a parameter, `WitParser`, and `WitParser.Lawful` names what the generator
relies on: the canonical layout of types in memory, their flattening to core
types, and the shape of core signatures.
-/

namespace WitBindgen

/-! ## Core types, sizes and representations -/

inductive WasmType where
  | i32 | i64 | f32 | f64 | pointer | pointerOrI64 | length
deriving DecidableEq

/-- Bytes a core value takes when pointers take `p`. -/
def WasmType.bytes (p : Nat) : WasmType → Nat
  | .i32 | .f32 => 4
  | .i64 | .f64 | .pointerOrI64 => 8
  | .pointer | .length => p

/-- A size counted in bytes and pointers. -/
structure ArchitectureSize where
  bytes : Nat
  pointers : Nat
deriving DecidableEq

instance : Inhabited ArchitectureSize := ⟨⟨0, 0⟩⟩

instance : Add ArchitectureSize := ⟨fun a b => ⟨a.bytes + b.bytes, a.pointers + b.pointers⟩⟩

def ArchitectureSize.addBytes (s : ArchitectureSize) (n : Nat) : ArchitectureSize :=
  ⟨s.bytes + n, s.pointers⟩

/-- The number of bytes when pointers take `p`. -/
def ArchitectureSize.eval (p : Nat) (s : ArchitectureSize) : Nat := s.bytes + p * s.pointers

@[simp] theorem ArchitectureSize.eval_add (p : Nat) (a b : ArchitectureSize) :
    (a + b).eval p = a.eval p + b.eval p := by
  show a.bytes + b.bytes + p * (a.pointers + b.pointers) = _
  rw [Nat.mul_add, eval, eval]
  omega

@[simp] theorem ArchitectureSize.eval_addBytes (p : Nat) (a : ArchitectureSize) (n : Nat) :
    (a.addBytes n).eval p = a.eval p + n := by
  simp only [eval, addBytes]
  omega

@[simp] theorem ArchitectureSize.eval_default (p : Nat) :
    (default : ArchitectureSize).eval p = 0 := by
  show 0 + p * 0 = 0
  omega

inductive Alignment where
  | pointer
  | bytes (n : Nat)
deriving DecidableEq

/-- `ArchitectureSize::from(Alignment)`. -/
def Alignment.toSize : Alignment → ArchitectureSize
  | .pointer => ⟨0, 1⟩
  | .bytes n => ⟨n, 0⟩

def Alignment.eval (p : Nat) (a : Alignment) : Nat := a.toSize.eval p

structure ElementInfo where
  size : ArchitectureSize
  align : Alignment
deriving DecidableEq

/-- `wit_parser::Int`, the integer a discriminant or a small set of flags is
stored in. -/
inductive IntRepr where
  | u8 | u16 | u32 | u64
deriving DecidableEq

def IntRepr.bytes : IntRepr → Nat
  | .u8 => 1
  | .u16 => 2
  | .u32 => 4
  | .u64 => 8

inductive FlagsRepr where
  | u8
  | u16
  | u32 (n : Nat)
deriving DecidableEq

/-- Number of core words a set of flags is lowered to. -/
def FlagsRepr.count : FlagsRepr → Nat
  | .u8 | .u16 => 1
  | .u32 n => n

/-- Bytes one of these words takes in memory. -/
def FlagsRepr.wordBytes : FlagsRepr → Nat
  | .u8 => 1
  | .u16 => 2
  | .u32 _ => 4

/-- Bytes of a scalar in memory. -/
def Prim.bytes : Prim → Nat
  | .bool | .u8 | .s8 => 1
  | .u16 | .s16 => 2
  | .u32 | .s32 | .f32 | .char => 4
  | .u64 | .s64 | .f64 => 8

/-- The core type a scalar is passed as. -/
def Prim.flat : Prim → WasmType
  | .u64 | .s64 => .i64
  | .f32 => .f32
  | .f64 => .f64
  | _ => .i32

/-! ## Functions and signatures -/

inductive FunctionKind where
  | freestanding | asyncFreestanding
  | method (resource : TypeId) | asyncMethod (resource : TypeId)
  | static (resource : TypeId) | asyncStatic (resource : TypeId)
  | constructor (resource : TypeId)
deriving DecidableEq

structure Function where
  name : String
  kind : FunctionKind
  params : List (String × Ty)
  result : Option Ty

def Function.paramTypes (f : Function) : List Ty := f.params.map (·.2)

inductive AbiVariant where
  | guestImport | guestExport
  | guestImportAsync | guestExportAsync | guestExportAsyncStackful
deriving DecidableEq

structure WasmSignature where
  params : List WasmType
  results : List WasmType
  indirectParams : Bool
  retptr : Bool
deriving DecidableEq

/-! ## The parameter -/

/-- The functions of `wit-parser` the generator calls: those of `SizeAlign`,
`Variant::tag` and `Enum::tag` (by the number of cases), `Flags::repr` (by the
number of flags), `Resolve::push_flat` and `Resolve::wasm_signature`. -/
structure WitParser where
  size : Ty → ArchitectureSize
  align : Ty → Alignment
  fieldOffsets : List Ty → List (ArchitectureSize × Ty)
  payloadOffset : IntRepr → List (Option Ty) → ArchitectureSize
  record : List Ty → ElementInfo
  params : Option Ty → ElementInfo
  alignToArch : ArchitectureSize → Alignment → ArchitectureSize
  tag : Nat → IntRepr
  flagsRepr : Nat → FlagsRepr
  pushFlat : Ty → List WasmType
  wasmSignature : AbiVariant → Function → WasmSignature

def maxFlatParams : Nat := 16

def maxFlatAsyncParams : Nat := 4

/-- Flatten a type into its core types, or `none` when there are more than
`max` of them. -/
def WitParser.flatTypes (W : WitParser) (ty : Ty) (max : Option Nat) :
    Option (List WasmType) :=
  if (W.pushFlat ty).length ≤ max.getD maxFlatParams then some (W.pushFlat ty) else none

/-- The integer that holds the discriminant of a type with cases. -/
def WitParser.armTag (W : WitParser) : Ty → IntRepr
  | .variant _ _ cases => W.tag cases.length
  | _ => .u8

/-- `a.JoinsInto j`: a case whose core type is `a` can come to lie in a slot of
core type `j` when the cases of a variant are unified. A slot holds the widest
of its cases; lengths and pointers have an unknown width of at least 32 bits,
and a slot that may hold a pointer keeps its provenance. -/
def WasmType.JoinsInto : WasmType → WasmType → Prop
  | .i32, .i32 | .i32, .i64 | .i32, .length | .i32, .pointer | .i32, .pointerOrI64
  | .f32, .f32 | .f32, .i32 | .f32, .i64 | .f32, .length | .f32, .pointer
  | .f32, .pointerOrI64
  | .i64, .i64 | .i64, .pointerOrI64
  | .f64, .f64 | .f64, .i64 | .f64, .pointerOrI64
  | .length, .length | .length, .i64 | .length, .pointer | .length, .pointerOrI64
  | .pointer, .pointer | .pointer, .pointerOrI64
  | .pointerOrI64, .pointerOrI64 => True
  | _, _ => False

instance (a j : WasmType) : Decidable (a.JoinsInto j) := by
  unfold WasmType.JoinsInto; split <;> infer_instance

/-- What the generator relies on, for pointers of `p` bytes. -/
structure WitParser.Lawful (W : WitParser) (p : Nat) : Prop where
  width : p = 4 ∨ p = 8
  -- sizes of what is moved as one or two core values
  size_prim : ∀ q, (W.size (.prim q)).eval p = q.bytes
  size_string : (W.size .string).eval p = 2 * p
  size_list : ∀ id t, (W.size (.list id t)).eval p = 2 * p
  size_map : ∀ id k v, (W.size (.map id k v)).eval p = 2 * p
  size_errorContext : (W.size .errorContext).eval p = 4
  size_handle : ∀ id h name, (W.size (.handle id h name)).eval p = 4
  size_future : ∀ id t, (W.size (.future id t)).eval p = 4
  size_stream : ∀ id t, (W.size (.stream id t)).eval p = 4
  align_string : W.align .string = .pointer
  align_list : ∀ id t, W.align (.list id t) = .pointer
  align_map : ∀ id k v, W.align (.map id k v) = .pointer
  -- aggregates
  size_type : ∀ id t, W.size (.type id t) = W.size t
  size_fixedLengthList : ∀ id t n,
    (W.size (.fixedLengthList id t n)).eval p = n * (W.size t).eval p
  size_fields : ∀ ty types, ty.fieldTypes = some types → W.size ty = (W.record types).size
  fieldOffsets_types : ∀ types, (W.fieldOffsets types).map (·.2) = types
  fieldOffsets_apart : ∀ types, (W.fieldOffsets types).Pairwise fun a b =>
    a.1.eval p + (W.size a.2).eval p ≤ b.1.eval p
  fieldOffsets_within : ∀ types, ∀ f ∈ W.fieldOffsets types,
    f.1.eval p + (W.size f.2).eval p ≤ (W.record types).size.eval p
  -- discriminants and flags
  tag_fits : ∀ n, n ≤ 2 ^ 32 → n ≤ 256 ^ (W.tag n).bytes
  tag_ne_u64 : ∀ n, W.tag n ≠ .u64
  size_enum : ∀ id name cases,
    (W.tag cases.length).bytes ≤ (W.size (.enum id name cases)).eval p
  size_arms : ∀ ty arms, ty.arms = some arms → (W.armTag ty).bytes ≤ (W.size ty).eval p
  payload_after_tag : ∀ ty arms, ty.arms = some arms →
    (W.armTag ty).bytes ≤ (W.payloadOffset (W.armTag ty) arms).eval p
  payload_within : ∀ ty arms t, ty.arms = some arms → some t ∈ arms →
    (W.payloadOffset (W.armTag ty) arms).eval p + (W.size t).eval p ≤ (W.size ty).eval p
  flags_fit : ∀ n, n ≤ 8 * ((W.flagsRepr n).wordBytes * (W.flagsRepr n).count)
  size_flags : ∀ id name names,
    (W.flagsRepr names.length).wordBytes * (W.flagsRepr names.length).count ≤
      (W.size (.flags id name names)).eval p
  -- flattening
  flat_prim : ∀ q, W.pushFlat (.prim q) = [q.flat]
  flat_string : W.pushFlat .string = [.pointer, .length]
  flat_list : ∀ id t, W.pushFlat (.list id t) = [.pointer, .length]
  flat_map : ∀ id k v, W.pushFlat (.map id k v) = [.pointer, .length]
  flat_errorContext : W.pushFlat .errorContext = [.i32]
  flat_handle : ∀ id h name, W.pushFlat (.handle id h name) = [.i32]
  flat_future : ∀ id t, W.pushFlat (.future id t) = [.i32]
  flat_stream : ∀ id t, W.pushFlat (.stream id t) = [.i32]
  flat_enum : ∀ id name cases, W.pushFlat (.enum id name cases) = [.i32]
  flat_flags : ∀ id name names, W.pushFlat (.flags id name names) =
    List.replicate (W.flagsRepr names.length).count .i32
  flat_type : ∀ id t, W.pushFlat (.type id t) = W.pushFlat t
  flat_fixedLengthList : ∀ id t n,
    W.pushFlat (.fixedLengthList id t n) = (List.replicate n (W.pushFlat t)).flatten
  flat_fields : ∀ ty types, ty.fieldTypes = some types →
    W.pushFlat ty = (types.map W.pushFlat).flatten
  flat_arms : ∀ ty arms, ty.arms = some arms → ∃ slots, W.pushFlat ty = .i32 :: slots ∧
    ∀ t, some t ∈ arms → (W.pushFlat t).length ≤ slots.length ∧
      List.Forall₂ WasmType.JoinsInto (W.pushFlat t) (slots.take (W.pushFlat t).length)

/-- What disposing of single values relies on beside that. -/
structure WitParser.Placed (W : WitParser) : Prop where
  /-- the only field of a record lies at its start -/
  fieldOffsets_one : ∀ t, W.fieldOffsets [t] = [(default, t)]
  flags_words : ∀ n, (W.flagsRepr n).count ≤ 1 ↔ n ≤ 32

end WitBindgen
