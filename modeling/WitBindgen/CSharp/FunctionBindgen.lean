import WitBindgen.Abi.Phases
import WitBindgen.CSharp.Results
import WitBindgen.Library.Trace

/-!
# The C# function generator

`FunctionBindgen` of the C# backend, its `Bindgen` implementation. The text of a function
is kept as far as it wraps borrows, calls the implementation, disposes of what it
wrapped and hands the result over; an operand is kept as far as it is the name of a
variable, or such a name in a conversion.
-/

namespace WitBindgen.CSharp.FunctionBindgen

open Trace

/-- Variables of generated code: the core parameters `p0`, `p1`, …, what `locals.tmp` made,
which never gives a name twice, and the keyword `this` that stands for one in constructors.
Those for handles of imported resources are kept apart from the others. -/
inductive Local where
  | param (nth : Nat)
  | tmp (n : Nat)
  | resource (n : Nat)
  | this
  deriving DecidableEq

/-- The types that `unchecked` conversions mention. -/
inductive Word where
  | int | uint | long | ulong
  deriving DecidableEq

/-- The source text of an expression: a variable, `unchecked((word)(e))`, or anything else. -/
inductive Operand where
  | var (x : Local)
  | unchecked (word : Word) (e : Operand)
  | text
  deriving DecidableEq

/-- The expression around the call of the implementation: `await T.Ok(U.Ok(call))`, with
`new None()` where the call has no value. -/
structure Around where
  await : Bool
  oks : List TypeId
  none : Bool
  deriving DecidableEq

inductive Act where
  /-- `x = new R(new R.THandle(op));`, for a borrow of an imported resource. -/
  | lift (x : Local)
  /-- `var task = FAsync(args);`, and the head of that method, with a parameter for each of
  `ops`. -/
  | enter (args ops : List Operand)
  | call (args : List Operand) (around : Around)
  /-- `x?.Dispose();` -/
  | dispose (x : Local)
  | taskReturn (ops : List Operand)
  | cleanup
  | return_
  deriving DecidableEq

def Act.leaves : Act → Bool
  | .return_ => true
  | _ => false

inductive Direction where
  | import_
  | export_
  deriving DecidableEq

/-- `dealias`, and the directions of the resources in `all_resources`, which has no aliases. -/
structure Resources where
  dealias : TypeId → TypeId
  all : TypeId → Option Direction
  dealias_of_known : ∀ id, (all id).isSome → dealias id = id

/-- What the generator knows: the function's kind, the direction of the world's items it
is generated for, how many parameters it has names of, the resources, and the option
`with_wit_results`. -/
structure Config where
  kind : FunctionKind
  direction : Direction
  params : Nat
  resources : Resources
  withWitResults : Bool

structure Block where
  body : Text Act
  results : List Operand

/-- A block that is open: the text around it, and the first of its four variables. -/
structure BlockStorage where
  body : Text Act
  first : Nat

def BlockStorage.element (b : BlockStorage) : Operand := .var (.tmp b.first)
def BlockStorage.base (b : BlockStorage) : Operand := .var (.tmp (b.first + 1))
def BlockStorage.mapKey (b : BlockStorage) : Operand := .var (.tmp (b.first + 2))
def BlockStorage.mapValue (b : BlockStorage) : Operand := .var (.tmp (b.first + 3))

structure State where
  src : Text Act
  blockStorage : List BlockStorage
  blocks : List Block
  resourceDrops : List Local
  needsCleanup : Bool
  /-- How many variables `locals.tmp` has made. -/
  locals : Nat

def State.new : State := ⟨[], [], [], [], false, 0⟩

/-! ## Instructions -/

/-- What an arm of `emit` adds to `src`, its results, the borrows it puts on
`resource_drops`, whether it asks for cleanup, and how many variables it makes. -/
structure Rendered where
  code : Text Act
  results : List Operand
  drops : List Local
  cleanup : Bool
  locals : Nat

abbrev Rendering := Except Panic Rendered

def expressions (results : List Operand) : Rendering := .ok ⟨[], results, [], false, 0⟩

/-- Statements whose result is put in a new variable. -/
def bound (next : Nat) (code : Text Act) : Rendering := .ok ⟨code, [.var (.tmp next)], [], false, 1⟩

def statements (code : Text Act) : Rendering := .ok ⟨code, [], [], false, 0⟩

/-- The arms that hand their operand on as it is. -/
def same : List Operand → Rendering
  | [op] => expressions [op]
  | _ => .error .backend

def unchecked (word : Word) : List Operand → Rendering
  | [op] => expressions [.unchecked word op]
  | _ => .error .backend

/-- The arms that put their operands in a larger expression. -/
def compound (n : Nat) : Rendering := expressions (List.replicate n .text)

/-- The body of the block is in a loop. -/
def loopBound (next : Nat) : List Block → Rendering
  | [block] => bound next [.loop block.body]
  | _ => .error .backend

/-- `ListLower` and `MapLower`: an address and a count. -/
def lowerLoop (cleanup : Bool) : List Block → Rendering
  | [block] => .ok ⟨[.loop block.body], [.text, .text], [], cleanup, 0⟩
  | _ => .error .backend

/-- `lower_variant` and `OptionLower`, with a variable for each core value. -/
def lowerCases (next results : Nat) (blocks : List Block) : Rendering :=
  .ok ⟨[.branch (blocks.map (·.body))], (List.range' next results).map fun n => .var (.tmp n), [],
    false, results⟩

/-- A case uses the first result of its block if its payload is not empty. -/
def liftCase (payload : Bool) (block : Block) : Except Panic (Text Act) :=
  if payload && block.results.isEmpty then .error .unwrap else .ok block.body

/-- `lift_variant` -/
def liftCases (next : Nat) (payloads : List Bool) (blocks : List Block) : Rendering := do
  let cases ← (payloads.zip blocks).mapM fun (p, block) => liftCase p block
  bound next [.branch cases]

/-- `OptionLift`. What the block of the empty case has is not used. -/
def liftOption (next : Nat) (payload : Bool) : List Block → Rendering
  | [_, some_] => do
      let case ← liftCase payload some_
      bound next [.branch [[], case]]
  | _ => .error .backend

/-- `non_empty_type` -/
def nonEmptyType : Ty → Bool
  | .type _ t => nonEmptyType t
  | .record _ _ fields => !fields.isEmpty
  | .tuple _ types => !types.isEmpty
  | _ => true

def nonEmpty (payload : Option Ty) : Bool := (payload.map nonEmptyType).getD false

/-- `HandleLift` -/
def handleLift (c : Config) (handle : Handle) (next : Nat) : Rendering :=
  match c.resources.all (c.resources.dealias handle.resource) with
  | some .import_ =>
    let resource := if c.kind.isConstructor then .this else .resource next
    if handle.isOwn then .ok ⟨[], [.var resource], [], false, 1⟩
    else .ok ⟨[Stmt.act (Act.lift resource)], [.var resource], [resource], false, 1⟩
  | some .export_ => bound next []
  | none => .error .backend

/-- The arguments of the call: `self` is left out for a method. -/
def callArgs (kind : FunctionKind) (ops : List Operand) : List Operand :=
  match kind with
  | .method _ => ops.drop 1
  | _ => ops

/-- The results in ok position of the type, and whether the innermost has no ok type. -/
def payloadAndResults : Ty → List TypeId × Bool
  | .result id (some t) _ => (id :: (payloadAndResults t).1, (payloadAndResults t).2)
  | .result id none _ => ([id], true)
  | _ => ([], false)

/-- `handle_result_call` -/
def handleResultCall (withWitResults : Bool) (ty : Ty) (useAwait : Bool) : Around :=
  if withWitResults then ⟨false, [], false⟩
  else ⟨useAwait, (payloadAndResults ty).1, (payloadAndResults ty).2⟩

def around (c : Config) (func : Function) (isAsync : Bool) : Around :=
  if c.kind.isConstructor then ⟨false, [], false⟩
  else match func.result with
  | none => ⟨isAsync, [], false⟩
  | some ty => handleResultCall c.withWitResults ty isAsync

/-- A type with its aliases followed. -/
def dealias : Ty → Ty
  | .type _ t => dealias t
  | t => t

/-- The resource of a handle. -/
def handleOf (ty : Ty) : Option TypeId :=
  match dealias ty with
  | .handle _ h _ => some h.resource
  | _ => none

/-- `all_resources[&ty]` has an entry for the handles among the parameters, whose types the
inner method gives. -/
def knowsHandles (c : Config) (func : Function) : Bool :=
  func.paramTypes.all fun ty => (handleOf ty).all fun r => (c.resources.all r).isSome

/-- `CallInterface`. An async export prints a call of an async method, and goes on in that
method. -/
def callInterface (c : Config) (func : Function) (ops : List Operand) (next : Nat)
    (drops : List Local) : Rendering :=
  let args := callArgs c.kind ops
  let isAsync := c.kind.isAsync && c.direction == .export_
  if isAsync && !knowsHandles c func then .error .backend
  else .ok ⟨(if isAsync then [Stmt.act (Act.enter args ops)] else []) ++
      [Stmt.act (Act.call args (around c func isAsync))] ++ Text.acts (drops.map .dispose),
    if func.result.isSome || c.kind.isConstructor then [.var (.tmp next)] else [], [], isAsync, 1⟩

/-- `perform_cast` -/
def performCast (op : Operand) : Bitcast → Operand
  | .i64ToP64 | .p64ToI64 | .i32ToP | .pToI32 | .i32ToL | .lToI32 | .lToP | .pToL | .none => op
  | .sequence first second => performCast (performCast op first) second
  | _ => .text

/-- The arms of `emit`, given the operands, the blocks that the instruction takes, the
innermost open block and the state. -/
def render (c : Config) (i : Instruction) (ops : List Operand) (blocks : List Block)
    (scope : Option BlockStorage) (s : State) : Rendering :=
  match i with
  | .getArg nth => if nth < c.params then expressions [.var (.param nth)] else .error .overflow
  | .i32Const _ => expressions [.text]
  | .constZero tys => compound tys.length
  | .i32Load _ | .i32Load8U _ | .i32Load8S _ | .i32Load16U _ | .i32Load16S _ | .i64Load _
  | .f32Load _ | .f64Load _ | .pointerLoad _ | .lengthLoad _ => compound 1
  | .i32Store _ | .i32Store8 _ | .i32Store16 _ | .i64Store _ | .f32Store _ | .f64Store _
  | .pointerStore _ | .lengthStore _ => statements []
  | .i64FromU64 => unchecked .long ops
  | .i32FromU32 => unchecked .int ops
  | .u32FromI32 | .charFromI32 => unchecked .uint ops
  | .u64FromI64 => unchecked .ulong ops
  | .i32FromChar | .u8FromI32 | .s8FromI32 | .u16FromI32 | .s16FromI32 | .i32FromBool
  | .boolFromI32 | .enumLower _ _ _ | .enumLift _ _ _ => compound 1
  | .i64FromS64 | .i32FromU16 | .i32FromS16 | .i32FromU8 | .i32FromS8 | .i32FromS32
  | .f32FromCoreF32 | .coreF32FromF32 | .coreF64FromF64 | .f64FromCoreF64 | .s32FromI32
  | .s64FromI64 => same ops
  | .bitcasts casts => expressions ((casts.zip ops).map fun (cast, op) => performCast op cast)
  | .flagsLower flags _ _ => compound (if flags.length > 32 then 2 else 1)
  | .flagsLift flags _ _ =>
    if (if flags.length > 32 then 2 else 1) ≤ ops.length then compound 1 else .error .overflow
  | .recordLower record _ _ => compound record.length
  | .tupleLower tuple _ => compound tuple.length
  | .recordLift _ _ _ | .tupleLift _ _ => compound 1
  | .variantPayloadName => bound s.locals []
  | .variantLower _ _ _ results => lowerCases s.locals results.length blocks
  | .optionLower _ _ results => lowerCases s.locals results.length blocks
  | .resultLower _ _ _ results => lowerCases s.locals results.length blocks
  | .variantLift cases _ _ => liftCases s.locals (cases.map fun x => nonEmpty x.2) blocks
  | .resultLift ok err _ => liftCases s.locals [nonEmpty ok, nonEmpty err] blocks
  | .optionLift payload _ => liftOption s.locals (nonEmptyType payload) blocks
  | .listCanonLower _ _ => .ok ⟨[], [.text, .text], [], c.direction == .import_, 0⟩
  | .stringLower realloc => .ok ⟨[], [.text, .var (.tmp s.locals)], [], realloc.isNone, 1⟩
  | .listLower _ realloc | .mapLower _ _ realloc => lowerLoop realloc.isNone blocks
  | .listCanonLift _ _ | .stringLift => bound s.locals []
  | .listLift _ _ | .mapLift _ _ _ => loopBound s.locals blocks
  | .iterElem _ => (scope.map fun b => expressions [b.element]).getD (.error .unwrap)
  | .iterBasePointer => (scope.map fun b => expressions [b.base]).getD (.error .unwrap)
  | .iterMapKey _ => (scope.map fun b => expressions [b.mapKey]).getD (.error .unwrap)
  | .iterMapValue _ => (scope.map fun b => expressions [b.mapValue]).getD (.error .unwrap)
  | .callWasm _ sig =>
    if sig.results.length ≤ 1 then
      .ok ⟨[], sig.results.map fun _ => .var (.tmp s.locals), [], false, 1⟩
    else .error .unreachable
  | .callInterface func _ => callInterface c func ops s.locals s.resourceDrops
  | .return_ _ _ =>
    statements ((if s.needsCleanup then [Stmt.act Act.cleanup] else []) ++ [Stmt.act Act.return_])
  | .guestDeallocate _ _ | .guestDeallocateString => statements []
  | .guestDeallocateVariant _ => statements [.branch (blocks.map (·.body))]
  | .guestDeallocateList _ | .guestDeallocateMap _ _ =>
    statements (blocks.map fun block => .loop block.body)
  | .handleLower _ _ _ => bound s.locals []
  | .handleLift handle _ _ => handleLift c handle s.locals
  | .flush amt => expressions (ops.take amt)
  | .futureLower _ _ | .streamLower _ _ => compound 1
  | .futureLift _ _ | .streamLift _ _ => bound s.locals []
  | .asyncTaskReturn _ _ =>
    if c.direction = .export_ then
      statements ([Stmt.act (Act.taskReturn ops)] ++ if s.needsCleanup then [Stmt.act Act.cleanup] else [])
    else statements []
  | .malloc _ _ _ | .errorContextLower | .errorContextLift | .dropHandle _
  | .fixedLengthListLift _ _ _ | .fixedLengthListLower _ _ _
  | .fixedLengthListLowerToMemory _ _ _ | .fixedLengthListLiftFromMemory _ _ _ => .error .todo

/-- `strip_lift`: `unchecked((word)(x))` becomes `x`. -/
def stripLift : Operand → Operand
  | .unchecked _ (.var x) => .var x
  | .unchecked word e => .unchecked word (stripLift e)
  | e => e

/-- `is_primitive` -/
def isPrimitive : Ty → Bool
  | .prim .bool | .prim .char => false
  | .prim _ => true
  | _ => false

abbrev functionBindgen (c : Config) : Bindgen where
  State := State
  Operand := Operand
  emit i ops s :=
    let n := i.blockResults.length
    if n ≤ s.blocks.length then do
      let r ← render c i ops (s.blocks.drop (s.blocks.length - n)) s.blockStorage.getLast? s
      .ok (r.results, { s with
        src := s.src ++ r.code
        blocks := s.blocks.take (s.blocks.length - n)
        resourceDrops := s.resourceDrops ++ r.drops
        needsCleanup := s.needsCleanup || r.cleanup
        locals := s.locals + r.locals })
    else .error .unwrap
  returnPointer _ _ s := .ok (.var (.tmp s.locals), { s with locals := s.locals + 1 })
  pushBlock s := .ok { s with
    src := []
    blockStorage := s.blockStorage ++ [⟨s.src, s.locals⟩]
    locals := s.locals + 4 }
  finishBlock ops s :=
    match s.blockStorage.getLast? with
    | some storage => .ok { s with
        src := storage.body
        blockStorage := s.blockStorage.dropLast
        blocks := s.blocks ++ [⟨s.src, ops⟩] }
    | none => .error .unwrap
  isListCanonical := isPrimitive

/-! ## Exports -/

/-- `InterfaceGenerator::export`: the body of the exported method, which starts with a
declaration `R? x = null;` for each of `resource_drops`. -/
structure Generated where
  src : Text Act
  vars : List Local

def config (W : WitParser) (resources : Resources) (withWitResults : Bool) (func : Function) :
    Config :=
  ⟨func.kind, .export_, (W.wasmSignature .guestExport func).params.length, resources,
    withWitResults⟩

def export_ (W : WitParser) (resources : Resources) (withWitResults : Bool) (func : Function) :
    Except Panic Generated := do
  let (_, s) ← call W (B := functionBindgen (config W resources withWitResults func)) .guestExport
    .liftArgsLowerResults func func.kind.isAsync State.new
  .ok ⟨s.bindgen.src, s.bindgen.resourceDrops⟩

end WitBindgen.CSharp.FunctionBindgen
