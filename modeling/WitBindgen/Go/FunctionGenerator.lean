import WitBindgen.Abi.Keeps
import WitBindgen.Library.Trace

/-!
# The Go function generator

`FunctionGenerator` of the Go backend, its `Bindgen` implementation, and what `Go::import` and
`Go::export` put around its output. The generated text is kept as far as it pins and unpins
buffers, loads from memory, and calls.

An operand is source text, printed wherever an instruction uses it, and evaluated there each
time: what is kept of it is how many loads from memory that is.
-/

namespace WitBindgen.Go

open Trace

/-- What generated code is observed to do. -/
inductive Act where
  /-- A load through an `unsafe.Pointer`. -/
  | load
  /-- `pinner.Pin(…)`, and `witRuntime.Allocate(pinner, …)`. -/
  | pin | allocate
  /-- The definition of the variable `pinner`, and `pinner.Unpin()`. -/
  | define | unpin
  /-- `witRuntime.Unpin()`, which releases what `cabi_realloc` allocated. -/
  | unpinRuntime
  | callUser | callHost | wait | taskReturn
  /-- A `return` statement, and the end of the function. -/
  | return_ | exit
deriving DecidableEq

/-- Only a `return` leaves the text of a body. -/
def Act.leaves : Act → Bool
  | .return_ => true
  | _ => false

abbrev Operand := Nat

def evaluate (op : Operand) : Text Act := .acts (List.replicate op .load)

def evaluateAll (ops : List Operand) : Text Act := ops.flatMap evaluate

/-- The fields of `FunctionGenerator` that do not change; `name` is there in an export, and of
`param_names` the length is kept. -/
structure Config where
  name : Option String
  paramNames : Nat
  unpinParams : Bool
  inImport : Bool

structure State where
  src : Text Act
  blockStorage : List (Text Act)
  blocks : List (Text Act × List Operand)
  needPinner : Bool
  returnAreaSize : ArchitectureSize

def State.new : State := ⟨[], [], [], false, default⟩

/-- `ArchitectureSize::is_empty`. -/
def isEmpty (size : ArchitectureSize) : Bool := size.bytes == 0 && size.pointers == 0

/-- `ArchitectureSize::max`. -/
def maxSize (a b : ArchitectureSize) : ArchitectureSize :=
  ⟨max a.bytes b.bytes, max a.pointers b.pointers⟩

/-! ## Instructions -/

/-- The assignments to `n` result variables at the end of an arm. -/
def assignments (n : Nat) (results : List Operand) : Text Act := evaluateAll (results.take n)

/-- One `case` of a `switch` over `value.Tag()`. The payload is bound by evaluating `value`
once more. -/
def lowerCase (value : Operand) (n : Nat) (hasPayload : Bool)
    (block : Text Act × List Operand) : Text Act :=
  (if hasPayload then evaluate value else []) ++ block.1 ++ assignments n block.2

/-- One `case` of a `switch` over a tag: its block hands back a result if it has a payload. -/
def liftCase (hasPayload : Bool) (block : Text Act × List Operand) : Except Panic (Text Act) :=
  if block.2.isEmpty = !hasPayload then
    .ok (block.1 ++ evaluateAll (block.2.take 1))
  else .error .assert

/-- `for index := 0; index < int(length); index++`, around `turn`. -/
def countedLoop (length : Operand) (turn : Text Act) : Text Act :=
  evaluate length ++ [Stmt.loop (evaluate length ++ turn)] ++ evaluate length

/-- What an arm of `emit` adds to `src`, and its results. -/
abbrev Rendered := Except Panic (Text Act × List Operand)

abbrev Block := Text Act × List Operand

/-- The arms that wrap their operand in another expression. -/
def unary : List Operand → Rendered
  | [op] => .ok ([], [op])
  | _ => .error .backend

def store : List Operand → Rendered
  | [src, pointer] => .ok (evaluate pointer ++ evaluate src, [])
  | _ => .error .backend

def load : List Operand → Rendered
  | [pointer] => .ok ([], [pointer + 1])
  | _ => .error .backend

/-- `StringLower` and `ListCanonLower`. -/
def pinInPlace : List Operand → Rendered
  | [value] => .ok (evaluate value ++ [Stmt.act .pin], [0, value])
  | _ => .error .backend

/-- `StringLift` and `ListCanonLift`. -/
def viewInPlace : List Operand → Rendered
  | [pointer, length] => .ok (evaluate pointer ++ evaluate length, [0])
  | _ => .error .backend

/-- `ListLower` and `MapLower`. -/
def lowerLoop : List Operand → List Block → Rendered
  | [value], [(body, _)] => .ok (evaluate value ++ [Stmt.act Act.allocate, .loop body], [0, 0])
  | _, _ => .error .backend

/-- `ListLift` and `MapLift`, which use `n` results of the body. -/
def liftLoop (n : Nat) : List Operand → List Block → Rendered
  | [value, length], [(body, bodyResults)] =>
    if n ≤ bodyResults.length then
      .ok (evaluate length ++ countedLoop length
        (evaluate value ++ body ++ evaluateAll (bodyResults.take n)), [0])
    else .error .overflow
  | _, _ => .error .backend

/-- `TupleLower` and `RecordLower`. -/
def lowerFields (n : Nat) : List Operand → Rendered
  | [op] => .ok ([], List.replicate n op)
  | _ => .error .backend

/-- `OptionLower`, `ResultLower` and `VariantLower`: which cases have a payload, and the number
of results. -/
def lowerCases (payloads : List Bool) (n : Nat) : List Operand → List Block → Rendered
  | [value], blocks => .ok (evaluate value ++ [.branch ((payloads.zip blocks).map fun (p, block) =>
    lowerCase value n p block)], List.replicate n 0)
  | _, _ => .error .backend

/-- `OptionLift`, `ResultLift` and `VariantLift`. -/
def liftCases (payloads : List Bool) : List Operand → List Block → Rendered
  | [tag], blocks => do
      let cases ← (payloads.zip blocks).mapM fun (p, block) => liftCase p block
      .ok (evaluate tag ++ [.branch cases], [0])
  | _, _ => .error .backend

def callInterface (unpinParams hasResult : Bool) (ops : List Operand) : Rendered :=
  .ok ((if unpinParams then [Stmt.act Act.unpinRuntime] else []) ++ evaluateAll ops ++ [Stmt.act Act.callUser],
    if hasResult then [0] else [])

def return_ (hasResult : Bool) (ops : List Operand) : Rendered :=
  if hasResult then
    match ops with
    | result :: _ => .ok (evaluate result ++ [Stmt.act .return_], [])
    | [] => .error .overflow
  else .ok ([], [])

def callWasm (results : List WasmType) (ops : List Operand) : Rendered :=
  match results with
  | [] => .ok (evaluateAll ops ++ [Stmt.act Act.callHost], [])
  | [_] => .ok (evaluateAll ops ++ [Stmt.act Act.callHost], [0])
  | _ => .error .unreachable

/-- `flags_repr` knows three representations. -/
def flagsLift (repr : FlagsRepr) (ops : List Operand) : Rendered :=
  match ops.getLast?, repr with
  | none, _ => .error .unwrap
  | some value, .u8 | some value, .u16 | some value, .u32 1 => .ok ([], [value])
  | some _, .u32 _ => .error .unreachable

/-- The arms of `emit`, given the operands and the blocks that the instruction takes. -/
def render (W : WitParser) (c : Config) (i : Instruction) (ops : List Operand)
    (blocks : List Block) : Rendered :=
  match i with
  | .getArg nth => if nth < c.paramNames then .ok ([], [0]) else .error .overflow
  | .stringLower _ | .listCanonLower _ _ => pinInPlace ops
  | .stringLift | .listCanonLift _ _ => viewInPlace ops
  | .listLower _ _ | .mapLower _ _ _ => lowerLoop ops blocks
  | .listLift _ _ => liftLoop 1 ops blocks
  | .mapLift _ _ _ => liftLoop 2 ops blocks
  | .callInterface func _ => callInterface c.unpinParams func.result.isSome ops
  | .return_ _ func => return_ func.result.isSome ops
  | .asyncTaskReturn _ _ =>
    if c.name.isSome then .ok (evaluateAll ops ++ [Stmt.act .taskReturn], []) else .error .unwrap
  | .lengthStore _ | .pointerStore _ | .i32Store8 _ | .i32Store16 _ | .i32Store _ | .i64Store _
  | .f32Store _ | .f64Store _ => store ops
  | .lengthLoad _ | .pointerLoad _ | .i32Load8U _ | .i32Load8S _ | .i32Load16U _
  | .i32Load16S _ | .i32Load _ | .i64Load _ | .f32Load _ | .f64Load _ => load ops
  | .boolFromI32 | .u8FromI32 | .s8FromI32 | .u16FromI32 | .s16FromI32 | .u32FromI32
  | .s32FromI32 | .s64FromI64 | .u64FromI64 | .i32FromU8 | .i32FromS8 | .i32FromU16
  | .i32FromS16 | .i32FromU32 | .i32FromS32 | .i64FromS64 | .i64FromU64 | .coreF32FromF32
  | .coreF64FromF64 | .f32FromCoreF32 | .f64FromCoreF64 | .charFromI32 | .i32FromChar
  | .flagsLower _ _ _ | .enumLower _ _ _ | .enumLift _ _ _
  | .handleLower _ _ _ | .handleLift _ _ _ | .futureLower _ _ | .futureLift _ _
  | .streamLower _ _ | .streamLift _ _ => unary ops
  | .i32FromBool => .ok (evaluateAll ops ++ [.branch [[], []]], [0])
  | .tupleLower tuple _ => lowerFields tuple.length ops
  | .recordLower record _ _ => lowerFields record.length ops
  | .tupleLift _ _ => .ok ([], [ops.sum])
  | .recordLift record _ _ => .ok ([], [(ops.take record.length).sum])
  | .flagsLift flags _ _ => flagsLift (W.flagsRepr flags.length) ops
  | .optionLower _ _ results => lowerCases [false, true] results.length ops blocks
  | .resultLower ok err _ results => lowerCases [ok.isSome, err.isSome] results.length ops blocks
  | .variantLower cases _ _ results =>
    lowerCases (cases.map (·.2.isSome)) results.length ops blocks
  | .optionLift _ _ => liftCases [false, true] ops blocks
  | .resultLift ok err _ => liftCases [ok.isSome, err.isSome] ops blocks
  | .variantLift cases _ _ => liftCases (cases.map (·.2.isSome)) ops blocks
  | .variantPayloadName | .iterElem _ | .iterBasePointer | .iterMapKey _ | .iterMapValue _
  | .i32Const _ => .ok ([], [0])
  | .constZero tys => .ok ([], List.replicate tys.length 0)
  | .bitcasts casts => .ok ([], (casts.zip ops).map (·.2))
  | .callWasm _ sig => callWasm sig.results ops
  | .flush amt => .ok (evaluateAll (ops.take amt), List.replicate (ops.take amt).length 0)
  | .guestDeallocate _ _ | .guestDeallocateMap _ _ => .ok ([], [])
  | .errorContextLower | .errorContextLift | .fixedLengthListLower _ _ _
  | .fixedLengthListLift _ _ _ | .fixedLengthListLowerToMemory _ _ _
  | .fixedLengthListLiftFromMemory _ _ _ | .malloc _ _ _ | .guestDeallocateString
  | .guestDeallocateList _ | .guestDeallocateVariant _ | .dropHandle _ => .error .backend

/-- How many blocks an arm of `emit` takes from `blocks`. -/
def blocksTaken : Instruction → Nat
  | .guestDeallocateMap _ _ => 0
  | i => i.blockResults.length

/-- `FunctionGenerator`. The arms that use the variable `pinner` ask for one. -/
abbrev functionGenerator (W : WitParser) (c : Config) : Bindgen where
  State := State
  Operand := Operand
  emit i ops s :=
    if blocksTaken i ≤ s.blocks.length then do
      let (stmts, results) ← render W c i ops (s.blocks.drop (s.blocks.length - blocksTaken i))
      .ok (results, { s with
        src := s.src ++ stmts
        blocks := s.blocks.take (s.blocks.length - blocksTaken i)
        needPinner := s.needPinner || i.allocates })
    else .error .unwrap
  returnPointer size _ s :=
    if c.inImport then
      let returnAreaSize := maxSize s.returnAreaSize size
      .ok (0, { s with returnAreaSize, needPinner := s.needPinner || !isEmpty returnAreaSize })
    else .ok (0, s)
  pushBlock s := .ok { s with src := [], blockStorage := s.blockStorage ++ [s.src] }
  finishBlock ops s :=
    match s.blockStorage.getLast? with
    | some toRestore => .ok { s with
        src := toRestore
        blockStorage := s.blockStorage.dropLast
        blocks := s.blocks ++ [(s.src, ops)] }
    | none => .error .unwrap
  isListCanonical
    | .prim .bool | .prim .char => false
    | .prim _ => true
    | _ => false

/-! ## Functions -/

inductive Side where
  | import_ | export_
deriving DecidableEq

/-- A generated function: its body, whether `pinner.Unpin()` is deferred, and whether it comes
with a post-return function that unpins. -/
structure Generated where
  body : Text Act
  deferred : Bool
  postReturn : Bool

/-- Lowering the arguments of an async import, and the arguments of the core call. -/
def importAsyncLower (W : WitParser) (c : Config) (func : Function) (sig : WasmSignature)
    (s : State) : Except Panic (Text Act × List Operand × State) :=
  if sig.indirectParams then do
    let s ← func.paramTypes.foldlM (fun s ty =>
      Abi.lowerToMemory W (B := functionGenerator W c) (0 : Nat) (0 : Nat) ty s) s
    .ok (.act .allocate :: s.src, [0], { s with src := [], needPinner := true })
  else do
    let (wasmParams, s) ← func.paramTypes.foldlM (fun (wasmParams, s) ty => do
      let (ops, s) ← Abi.lowerFlat W (B := functionGenerator W c) (0 : Nat) ty s
      .ok (wasmParams ++ ops, s)) (([] : List Operand), s)
    .ok (s.src, wasmParams, { s with src := [] })

def importAsyncLift (W : WitParser) (c : Config) (func : Function) (s : State) :
    Except Panic (Text Act × State) :=
  match func.result with
  | none => .ok ([], s)
  | some ty => do
      let (result, s) ← Abi.liftFromMemory W (B := functionGenerator W c) (0 : Nat) ty s
      .ok (s.src ++ evaluate result ++ [Stmt.act .return_], { s with src := [] })

/-- The code of an import, before the return area and the pinner are put in front of it. -/
def importCode (W : WitParser) (c : Config) (func : Function) (async_ : Bool) :
    Except Panic (Text Act × State) :=
  if async_ then do
    let sig := W.wasmSignature .guestImportAsync func
    let (lower, wasmParams, s) ← importAsyncLower W c func sig State.new
    let wasmParams := wasmParams ++ (if func.result.isSome then [0] else [])
    let (lift, s) ← importAsyncLift W c func s
    .ok (lower ++ evaluateAll wasmParams ++ [Stmt.act Act.callHost, .act .wait] ++ lift, s)
  else do
    let (_, s) ← call W (B := functionGenerator W c) .guestImport .lowerArgsLiftResults func false
      State.new
    .ok (s.bindgen.src, s.bindgen)

/-- `match &sig.results[..] { [] => .., [result] => .., _ => unreachable!() }` -/
def assertOneResult (sig : WasmSignature) : Except Panic Unit :=
  if sig.results.length ≤ 1 then .ok () else .error .unreachable

/-- `Go::import`. -/
def goImport (W : WitParser) (func : Function) (async_ : Bool) : Except Panic Generated := do
  let variant := if async_ then AbiVariant.guestImportAsync else .guestImport
  assertOneResult (W.wasmSignature variant func)
  let (code, s) ← importCode W ⟨none, func.params.length, false, true⟩ func async_
  let returnArea := if async_ then func.result.isSome else !isEmpty s.returnAreaSize
  let needPinner := s.needPinner || returnArea
  .ok {
    body := (if needPinner then [Stmt.act Act.define] else []) ++
      (if returnArea then [Stmt.act Act.allocate] else []) ++ code
    deferred := needPinner
    postReturn := false }

/-- `Go::export`. -/
def goExport (W : WitParser) (func : Function) (name : String) (async_ : Bool) :
    Except Panic Generated := do
  let variant := if async_ then AbiVariant.guestExportAsync else .guestExport
  let sig := W.wasmSignature variant func
  assertOneResult sig
  let unpinParams ← if sig.indirectParams then .ok true else guestExportParamsHaveAllocations func
  let (_, s) ← call W (B := functionGenerator W ⟨some name, sig.params.length, unpinParams, false⟩)
    variant .liftArgsLowerResults func async_ State.new
  let needsPostReturn ← guestExportNeedsPostReturn func
  .ok {
    body := (if needsPostReturn then [Stmt.act Act.define] else []) ++ s.bindgen.src
    deferred := async_ && needsPostReturn
    postReturn := !async_ && needsPostReturn }

def goFunction (W : WitParser) (side : Side) (func : Function) (name : String) (async_ : Bool) :
    Except Panic Generated :=
  match side with
  | .import_ => goImport W func async_
  | .export_ => goExport W func name async_

end WitBindgen.Go
