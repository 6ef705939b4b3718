import WitBindgen.Abi.Instruction

/-!
# The ABI generator

`Generator` of `abi.rs`: an operand stack in front of a `Bindgen`, the trait
that a language backend implements. The emitters push and pop operands, open
and finish blocks and hand instructions to the backend. A failed assertion, a
`todo!()`, an `unreachable!()` and an `unwrap` of `None` are panics.

Arms and fields reach the combinators as types paired with the emitter that is
to run on them, so that the recursions below are seen to descend.
-/

namespace WitBindgen

/-! ## Backends -/

inductive Panic where
  | assert | todo | unreachable | unwrap | overflow | backend
deriving DecidableEq

/-- `trait Bindgen`. The results pushed by `emit` are its first component. -/
structure Bindgen where
  State : Type
  Operand : Type
  emit : Instruction → List Operand → State → Except Panic (List Operand × State)
  returnPointer : ArchitectureSize → Alignment → State → Except Panic (Operand × State)
  pushBlock : State → Except Panic State
  finishBlock : List Operand → State → Except Panic State
  isListCanonical : Ty → Bool

inductive Realloc where
  | none
  | export_ (name : String)
deriving DecidableEq

inductive Deallocate where
  | lists
  | listsAndOwn
deriving DecidableEq

def Deallocate.handles : Deallocate → Bool
  | .lists => false
  | .listsAndOwn => true

inductive LiftLower where
  | liftArgsLowerResults
  | lowerArgsLiftResults
deriving DecidableEq

/-- The fields of `Generator`. The top of the stack is its last element. -/
structure GenState (B : Bindgen) where
  bindgen : B.State
  stack : List B.Operand
  returnPointer : Option B.Operand
  realloc : Option Realloc

abbrev Gen (B : Bindgen) := StateT (GenState B) (Except Panic)

/-- `Generator::new`. -/
def GenState.new {B : Bindgen} (bindgen : B.State) : GenState B :=
  { bindgen, stack := [], returnPointer := none, realloc := none }

namespace Generator

variable (W : WitParser) {B : Bindgen}

/-! ## The operand stack -/

def panic {α : Type} (p : Panic) : Gen B α := fun _ => .error p

def assert (b : Bool) : Gen B Unit := if b then pure () else panic .assert

def orPanic {α : Type} (p : Panic) (o : Option α) : Gen B α :=
  match o with
  | some a => pure a
  | none => panic p

theorem bind_ok {α β : Type} {g : Gen B α} {f : α → Gen B β} {s s' : GenState B} {x : α}
    (h : g s = .ok (x, s')) : (g >>= f) s = f x s' := by
  show (g s >>= fun p => f p.1 p.2) = _
  rw [h]
  rfl

def push (x : B.Operand) : Gen B Unit := fun s => .ok ((), { s with stack := s.stack ++ [x] })

def extend (xs : List B.Operand) : Gen B Unit := fun s =>
  .ok ((), { s with stack := s.stack ++ xs })

/-- `self.stack.pop().unwrap()` -/
def pop : Gen B B.Operand := fun s =>
  match s.stack.getLast? with
  | some x => .ok (x, { s with stack := s.stack.dropLast })
  | none => .error .unwrap

/-- `self.stack.drain(self.stack.len() - n..)` -/
def drain (n : Nat) : Gen B (List B.Operand) := fun s =>
  if n ≤ s.stack.length then
    .ok (s.stack.drop (s.stack.length - n),
      { s with stack := s.stack.take (s.stack.length - n) })
  else .error .overflow

def emit (inst : Instruction) : Gen B Unit := fun s =>
  let n := inst.operandsLen W
  if n ≤ s.stack.length then
    match B.emit inst (s.stack.drop (s.stack.length - n)) s.bindgen with
    | .error p => .error p
    | .ok (results, bindgen) =>
      if results.length = inst.resultsLen W then
        .ok ((), { s with
          bindgen, stack := s.stack.take (s.stack.length - n) ++ results })
      else .error .assert
  else .error .assert

def pushBlock : Gen B Unit := fun s =>
  match B.pushBlock s.bindgen with
  | .error p => .error p
  | .ok bindgen => .ok ((), { s with bindgen })

def finishBlock (size : Nat) : Gen B Unit := fun s =>
  if size ≤ s.stack.length then
    match B.finishBlock (s.stack.drop (s.stack.length - size)) s.bindgen with
    | .error p => .error p
    | .ok bindgen =>
      .ok ((), { s with bindgen, stack := s.stack.take (s.stack.length - size) })
  else .error .assert

/-- `self.push_block(); body; self.finish_block(size);` -/
def block (size : Nat) (body : Gen B Unit) : Gen B Unit := do
  pushBlock
  body
  finishBlock size

/-- `self.bindgen.return_pointer(size, align)` -/
def returnPointer (size : ArchitectureSize) (align : Alignment) : Gen B B.Operand := fun s =>
  match B.returnPointer size align s.bindgen with
  | .error p => .error p
  | .ok (x, bindgen) => .ok (x, { s with bindgen })

def setRealloc (r : Option Realloc) : Gen B Unit := fun s => .ok ((), { s with realloc := r })

def setReturnPointer (r : Option B.Operand) : Gen B Unit := fun s =>
  .ok ((), { s with returnPointer := r })

/-- `self.return_pointer.take().unwrap()` -/
def takeReturnPointer : Gen B B.Operand := fun s =>
  match s.returnPointer with
  | some x => .ok (x, { s with returnPointer := none })
  | none => .error .unwrap

def listRealloc : Gen B (Option String) := fun s =>
  match s.realloc with
  | none => .error .unwrap
  | some .none => .ok (none, s)
  | some (.export_ name) => .ok (some name, s)

/-- `flat_types(self.resolve, ty, None).unwrap()` -/
def flatTypes (ty : Ty) : Gen B (List WasmType) := orPanic .unwrap (W.flatTypes ty none)

def stackLen : Gen B Nat := fun s => .ok (s.stack.length, s)

def isListCanonical (element : Ty) : Gen B Bool := pure (B.isListCanonical element)

/-- `self.bindgen.sizes().field_offsets([key, value])[1].0` -/
def valueOffset (key value : Ty) : Gen B ArchitectureSize :=
  orPanic .overflow ((W.fieldOffsets [key, value])[1]?.map (·.1))

/-! ## Combinators over fields and arms -/

/-- A type with the emitter that handles it. -/
abbrev Member (B : Bindgen) := Ty × Gen B Unit

/-- The loop of `lower` over the values of a record or a tuple. -/
def lowerEach (members : List (Gen B Unit)) (values : List B.Operand) : Gen B Unit :=
  (members.zip values).forM fun (lower, value) => do
    push value
    lower

/-- The bitcasts between two lists of core types, as far as both reach. -/
def castAll (src dst : List WasmType) : Option (List Bitcast) :=
  (src.zip dst).mapM fun (a, b) => cast a b

def emitCasts (src dst : List WasmType) : Gen B Unit := do
  let casts ← orPanic .unreachable (castAll src dst)
  if casts.any (· ≠ .none) then
    emit W (.bitcasts casts)

/-- `xs[..n]` -/
def slice (n : Nat) (xs : List B.Operand) : Gen B (List B.Operand) :=
  if n ≤ xs.length then pure (xs.take n) else panic .overflow

/-- One turn of the loop of `lower_variant_arms`. -/
def lowerVariantArm (results : List WasmType) (i : Nat) (arm : Option (Member B)) :
    Gen B Unit :=
  block results.length do
    emit W .variantPayloadName
    let payloadName ← pop
    emit W (.i32Const (BitVec.ofNat 32 i))
    let pushed ← match arm with
      | none => pure 1
      | some (ty, lower) => do
          push payloadName
          lower
          let temp ← flatTypes W ty
          emitCasts W temp results.tail
          pure (1 + temp.length)
    if pushed < results.length then
      emit W (.constZero (results.drop pushed))

def lowerVariantArms (ty : Ty) (arms : List (Option (Member B))) : Gen B (List WasmType) := do
  let results ← flatTypes W ty
  arms.zipIdx.forM fun (arm, i) => lowerVariantArm W results i arm
  pure results

/-- The loop of `flat_for_each_record_type`, with the operands not yet used. -/
def forEachRecordType : List (Member B) → List B.Operand → Gen B Unit
  | [], _ => pure ()
  | (ty, iter) :: members, args => do
      let temp ← flatTypes W ty
      extend (← slice temp.length args)
      iter
      forEachRecordType members (args.drop temp.length)

def flatForEachRecordType (container : Ty) (members : List (Member B)) : Gen B Unit := do
  let temp ← flatTypes W container
  let args ← drain temp.length
  forEachRecordType W members args

/-- One turn of the loop of `flat_for_each_variant_arm`. -/
def flatForVariantArm (params : List WasmType) (blocksWithTypeHaveResult : Bool)
    (blockInputs : List B.Operand) (arm : Option (Member B)) : Gen B Unit :=
  block (if blocksWithTypeHaveResult && arm.isSome then 1 else 0) do
    match arm with
    | none => pure ()
    | some (ty, iter) => do
        let temp ← flatTypes W ty
        extend (← slice temp.length blockInputs)
        emitCasts W (params.tail.take temp.length) temp
        iter

def flatForEachVariantArm (ty : Ty) (blocksWithTypeHaveResult : Bool)
    (arms : List (Option (Member B))) : Gen B Unit := do
  let params ← flatTypes W ty
  let blockInputs ← drain (params.length - 1)
  arms.forM (flatForVariantArm W params blocksWithTypeHaveResult blockInputs)

def loadIntrepr (offset : ArchitectureSize) : IntRepr → Gen B Unit
  | .u64 => emit W (.i64Load offset)
  | .u32 => emit W (.i32Load offset)
  | .u16 => emit W (.i32Load16U offset)
  | .u8 => emit W (.i32Load8U offset)

def storeIntrepr (offset : ArchitectureSize) : IntRepr → Gen B Unit
  | .u64 => emit W (.i64Store offset)
  | .u32 => emit W (.i32Store offset)
  | .u16 => emit W (.i32Store16 offset)
  | .u8 => emit W (.i32Store8 offset)

/-- A type with the emitter that moves it to or from a place in memory. -/
abbrev MemMember (B : Bindgen) := Ty × (B.Operand → ArchitectureSize → Gen B Unit)

/-- One turn of the loop of `write_variant_arms_to_memory`. -/
def writeVariantArm (offset payloadOffset : ArchitectureSize) (addr : B.Operand)
    (tag : IntRepr) (i : Nat) (arm : Option (MemMember B)) : Gen B Unit :=
  block 0 do
    emit W .variantPayloadName
    let payloadName ← pop
    emit W (.i32Const (BitVec.ofNat 32 i))
    push addr
    storeIntrepr W offset tag
    match arm with
    | none => pure ()
    | some (_, write) => do
        push payloadName
        write addr payloadOffset

def writeVariantArmsToMemory (offset : ArchitectureSize) (addr : B.Operand) (tag : IntRepr)
    (arms : List (Option (MemMember B))) : Gen B Unit := do
  let payloadOffset := offset + W.payloadOffset tag (arms.map fun a => a.map (·.1))
  arms.zipIdx.forM fun (arm, i) => writeVariantArm W offset payloadOffset addr tag i arm

/-- The members of `tys` in memory order, each with its offset and value. -/
def writeFieldsToMemory (members : List (MemMember B)) (addr : B.Operand)
    (offset : ArchitectureSize) : Gen B Unit := do
  let fields ← drain members.length
  let offsets := (W.fieldOffsets (members.map (·.1))).map (·.1)
  ((offsets.zip members).zip fields).forM fun ((fieldOffset, _, write), op) => do
    push op
    write addr (offset + fieldOffset)

/-- One turn of the loop of `read_variant_arms_from_memory`. -/
def readVariantArm (payloadOffset : ArchitectureSize) (addr : B.Operand)
    (arm : Option (MemMember B)) : Gen B Unit :=
  block (if arm.isSome then 1 else 0) do
    match arm with
    | none => pure ()
    | some (_, read) => read addr payloadOffset

def readVariantArmsFromMemory (offset : ArchitectureSize) (addr : B.Operand) (tag : IntRepr)
    (arms : List (Option (MemMember B))) : Gen B Unit := do
  push addr
  loadIntrepr W offset tag
  let payloadOffset := offset + W.payloadOffset tag (arms.map fun a => a.map (·.1))
  arms.forM (readVariantArm payloadOffset addr)

/-- `read_fields_from_memory` and `deallocate_indirect_fields`. -/
def forEachField (members : List (MemMember B)) (addr : B.Operand)
    (offset : ArchitectureSize) : Gen B Unit :=
  (((W.fieldOffsets (members.map (·.1))).map (·.1)).zip members).forM
    fun (fieldOffset, _, run) => run addr (offset + fieldOffset)

/-- One turn of the loop of `deallocate_indirect_variant`. -/
def deallocateIndirectArm (payloadOffset : ArchitectureSize) (addr : B.Operand)
    (arm : Option (MemMember B)) : Gen B Unit :=
  block 0 do
    match arm with
    | none => pure ()
    | some (_, deallocate) => deallocate addr payloadOffset

def deallocateIndirectVariant (offset : ArchitectureSize) (addr : B.Operand) (tag : IntRepr)
    (arms : List (Option (MemMember B))) : Gen B Unit := do
  push addr
  loadIntrepr W offset tag
  let payloadOffset := offset + W.payloadOffset tag (arms.map fun a => a.map (·.1))
  arms.forM (deallocateIndirectArm payloadOffset addr)

/-! ## Scalars -/

/-- The instruction `lower` emits for a scalar. -/
def lowerPrim : Prim → Instruction
  | .bool => .i32FromBool
  | .s8 => .i32FromS8
  | .u8 => .i32FromU8
  | .s16 => .i32FromS16
  | .u16 => .i32FromU16
  | .s32 => .i32FromS32
  | .u32 => .i32FromU32
  | .s64 => .i64FromS64
  | .u64 => .i64FromU64
  | .char => .i32FromChar
  | .f32 => .coreF32FromF32
  | .f64 => .coreF64FromF64

def liftPrim : Prim → Instruction
  | .bool => .boolFromI32
  | .s8 => .s8FromI32
  | .u8 => .u8FromI32
  | .s16 => .s16FromI32
  | .u16 => .u16FromI32
  | .s32 => .s32FromI32
  | .u32 => .u32FromI32
  | .s64 => .s64FromI64
  | .u64 => .u64FromI64
  | .char => .charFromI32
  | .f32 => .f32FromCoreF32
  | .f64 => .f64FromCoreF64

def storePrim (offset : ArchitectureSize) : Prim → Instruction
  | .bool | .u8 | .s8 => .i32Store8 offset
  | .u16 | .s16 => .i32Store16 offset
  | .u32 | .s32 | .char => .i32Store offset
  | .u64 | .s64 => .i64Store offset
  | .f32 => .f32Store offset
  | .f64 => .f64Store offset

def loadPrim (offset : ArchitectureSize) : Prim → Instruction
  | .bool | .u8 => .i32Load8U offset
  | .s8 => .i32Load8S offset
  | .u16 => .i32Load16U offset
  | .s16 => .i32Load16S offset
  | .u32 | .s32 | .char => .i32Load offset
  | .u64 | .s64 => .i64Load offset
  | .f32 => .f32Load offset
  | .f64 => .f64Load offset

/-! ## Lowering -/

/-- `write_list_to_memory`, with the emitter of `self.lower(ty)`. -/
def writeListToMemory (ty : Ty) (lower : Gen B Unit) (addr : B.Operand)
    (offset : ArchitectureSize) : Gen B Unit := do
  lower
  push addr
  emit W (.lengthStore (offset + (W.align ty).toSize))
  push addr
  emit W (.pointerStore offset)

def lowerAndEmit (lower : Gen B Unit) (addr : B.Operand) (instr : Instruction) :
    Gen B Unit := do
  lower
  push addr
  emit W instr

/-- The stores of a set of flags: one for the small representations, and for
`FlagsRepr::U32(n)` the words from the last to the first. -/
def storeFlags (repr : FlagsRepr) (addr : B.Operand) (offset : ArchitectureSize) :
    Gen B Unit :=
  match repr with
  | .u8 => do
      push addr
      storeIntrepr W offset .u8
  | .u16 => do
      push addr
      storeIntrepr W offset .u16
  | .u32 n => (List.range n).reverse.forM fun i => do
      push addr
      emit W (.i32Store (offset.addBytes (i * 4)))

mutual
def lower : Ty → Gen B Unit
  | .prim p => emit W (lowerPrim p)
  | .string => do
      let realloc ← listRealloc
      emit W (.stringLower realloc)
  | .errorContext => emit W .errorContextLower
  | .type _ t => lower t
  | .list _ element => do
      let realloc ← listRealloc
      if ← isListCanonical element then
        emit W (.listCanonLower element realloc)
      else
        block 0 do
          emit W (.iterElem element)
          emit W .iterBasePointer
          let addr ← pop
          writeToMemory element addr default
        emit W (.listLower element realloc)
  | .handle id handle name => emit W (.handleLower handle name id)
  | .resource _ => panic .todo
  | .record id name fields => do
      emit W (.recordLower fields name id)
      let values ← drain fields.length
      lowerEach (fields.map fun f => lower f.2) values
  | .tuple id types => do
      emit W (.tupleLower types id)
      let values ← drain types.length
      lowerEach (types.map fun t => lower t) values
  | .flags id name flags => emit W (.flagsLower flags name id)
  | .variant id name cases => do
      let results ← lowerVariantArms W (.variant id name cases)
        (cases.map fun c => match _h : c.2 with
          | none => none
          | some t => some (t, lower t))
      emit W (.variantLower cases name id results)
  | .enum id name cases => emit W (.enumLower cases name id)
  | .option id t => do
      let results ← lowerVariantArms W (.option id t) [none, some (t, lower t)]
      emit W (.optionLower t id results)
  | .result id ok err => do
      let results ← lowerVariantArms W (.result id ok err)
        [match ok with | none => none | some t => some (t, lower t),
         match err with | none => none | some t => some (t, lower t)]
      emit W (.resultLower ok err id results)
  | .future id payload => emit W (.futureLower payload id)
  | .stream id payload => emit W (.streamLower payload id)
  | .unknown _ => panic .unreachable
  | .fixedLengthList id t size => do
      emit W (.fixedLengthListLower t size id)
      let values ← drain size
      lowerEach (List.replicate size (lower t)) values
  | .map _ key value => do
      let realloc ← listRealloc
      let valueOffset ← valueOffset W key value
      block 0 do
        emit W (.iterMapKey key)
        emit W .iterBasePointer
        let keyAddr ← pop
        writeToMemory key keyAddr default
        emit W (.iterMapValue value)
        emit W .iterBasePointer
        let valueAddr ← pop
        writeToMemory value valueAddr valueOffset
      emit W (.mapLower key value realloc)
termination_by t => (sizeOf t, 0)
decreasing_by
  all_goals first
    | decreasing_tactic
    | with_reducible exact Prod.Lex.left _ _ (Ty.sizeOf_field ‹_›)
    | with_reducible exact Prod.Lex.left _ _ (Ty.sizeOf_tuple ‹_›)
    | with_reducible exact Prod.Lex.left _ _ (Ty.sizeOf_arm ‹_› ‹_›)

def writeToMemory : Ty → B.Operand → ArchitectureSize → Gen B Unit
  | .prim p, addr, offset => lowerAndEmit W (lower (.prim p)) addr (storePrim offset p)
  | .string, addr, offset => writeListToMemory W .string (lower .string) addr offset
  | .errorContext, addr, offset =>
    lowerAndEmit W (lower .errorContext) addr (.i32Store offset)
  | .type _ t, addr, offset => writeToMemory t addr offset
  | .list id t, addr, offset =>
    writeListToMemory W (.list id t) (lower (.list id t)) addr offset
  | .map id k v, addr, offset =>
    writeListToMemory W (.map id k v) (lower (.map id k v)) addr offset
  | .future id t, addr, offset =>
    lowerAndEmit W (lower (.future id t)) addr (.i32Store offset)
  | .stream id t, addr, offset =>
    lowerAndEmit W (lower (.stream id t)) addr (.i32Store offset)
  | .handle id h name, addr, offset =>
    lowerAndEmit W (lower (.handle id h name)) addr (.i32Store offset)
  | .record id name fields, addr, offset => do
      emit W (.recordLower fields name id)
      writeFieldsToMemory W (fields.map fun f => (f.2, writeToMemory f.2)) addr offset
  | .resource _, _, _ => panic .todo
  | .tuple id types, addr, offset => do
      emit W (.tupleLower types id)
      writeFieldsToMemory W (types.map fun t => (t, writeToMemory t)) addr offset
  | .flags id name flags, addr, offset => do
      lower (.flags id name flags)
      storeFlags W (W.flagsRepr flags.length) addr offset
  | .variant id name cases, addr, offset => do
      writeVariantArmsToMemory W offset addr (W.tag cases.length)
        (cases.map fun c => match _h : c.2 with
          | none => none
          | some t => some (t, writeToMemory t))
      emit W (.variantLower cases name id [])
  | .option id t, addr, offset => do
      writeVariantArmsToMemory W offset addr .u8 [none, some (t, writeToMemory t)]
      emit W (.optionLower t id [])
  | .result id ok err, addr, offset => do
      writeVariantArmsToMemory W offset addr .u8
        [match ok with | none => none | some t => some (t, writeToMemory t),
         match err with | none => none | some t => some (t, writeToMemory t)]
      emit W (.resultLower ok err id [])
  | .enum id name cases, addr, offset => do
      lower (.enum id name cases)
      push addr
      storeIntrepr W offset (W.tag cases.length)
  | .unknown _, _, _ => panic .unreachable
  | .fixedLengthList id element size, addr, offset => do
      block 0 do
        emit W (.iterElem element)
        emit W .iterBasePointer
        let elemAddr ← pop
        writeToMemory element elemAddr offset
      push addr
      emit W (.fixedLengthListLowerToMemory element size id)
termination_by t => (sizeOf t, 1)
decreasing_by
  all_goals first
    | decreasing_tactic
    | with_reducible exact Prod.Lex.left _ _ (Ty.sizeOf_field ‹_›)
    | with_reducible exact Prod.Lex.left _ _ (Ty.sizeOf_tuple ‹_›)
    | with_reducible exact Prod.Lex.left _ _ (Ty.sizeOf_arm ‹_› ‹_›)
end

def writeParamsToMemory (params : List Ty) (addr : B.Operand) (offset : ArchitectureSize) :
    Gen B Unit :=
  writeFieldsToMemory W (params.map fun t => (t, writeToMemory W t)) addr offset

/-! ## Lifting -/

/-- `read_list_from_memory`, with the emitter of `self.lift(ty)`. -/
def readListFromMemory (ty : Ty) (lift : Gen B Unit) (addr : B.Operand)
    (offset : ArchitectureSize) : Gen B Unit := do
  push addr
  emit W (.pointerLoad offset)
  push addr
  emit W (.lengthLoad (offset + (W.align ty).toSize))
  lift

def emitAndLift (lift : Gen B Unit) (addr : B.Operand) (instr : Instruction) :
    Gen B Unit := do
  push addr
  emit W instr
  lift

def loadFlags (repr : FlagsRepr) (addr : B.Operand) (offset : ArchitectureSize) :
    Gen B Unit :=
  match repr with
  | .u8 => do
      push addr
      loadIntrepr W offset .u8
  | .u16 => do
      push addr
      loadIntrepr W offset .u16
  | .u32 n => (List.range n).forM fun i => do
      push addr
      emit W (.i32Load (offset.addBytes (i * 4)))

/-- The loop of `lift` over the elements of a fixed-length list. -/
def liftEach (flatPerElem : Nat) (lift : Gen B Unit) :
    Nat → List B.Operand → Gen B Unit
  | 0, _ => pure ()
  | n + 1, loweredArgs => do
      extend (← slice flatPerElem loweredArgs)
      lift
      liftEach flatPerElem lift n (loweredArgs.drop flatPerElem)

mutual
def lift : Ty → Gen B Unit
  | .prim p => emit W (liftPrim p)
  | .string => emit W .stringLift
  | .errorContext => emit W .errorContextLift
  | .type _ t => lift t
  | .list id element => do
      if ← isListCanonical element then
        emit W (.listCanonLift element id)
      else
        block 1 do
          emit W .iterBasePointer
          let addr ← pop
          readFromMemory element addr default
        emit W (.listLift element id)
  | .handle id handle name => emit W (.handleLift handle name id)
  | .resource _ => panic .todo
  | .record id name fields => do
      flatForEachRecordType W (.record id name fields)
        (fields.map fun f => (f.2, lift f.2))
      emit W (.recordLift fields name id)
  | .tuple id types => do
      flatForEachRecordType W (.tuple id types) (types.map fun t => (t, lift t))
      emit W (.tupleLift types id)
  | .flags id name flags => emit W (.flagsLift flags name id)
  | .variant id name cases => do
      flatForEachVariantArm W (.variant id name cases) true
        (cases.map fun c => match _h : c.2 with
          | none => none
          | some t => some (t, lift t))
      emit W (.variantLift cases name id)
  | .enum id name cases => emit W (.enumLift cases name id)
  | .option id t => do
      flatForEachVariantArm W (.option id t) true [none, some (t, lift t)]
      emit W (.optionLift t id)
  | .result id ok err => do
      flatForEachVariantArm W (.result id ok err) true
        [match ok with | none => none | some t => some (t, lift t),
         match err with | none => none | some t => some (t, lift t)]
      emit W (.resultLift ok err id)
  | .future id payload => emit W (.futureLift payload id)
  | .stream id payload => emit W (.streamLift payload id)
  | .unknown _ => panic .unreachable
  | .fixedLengthList id t size => do
      let temp ← flatTypes W t
      let loweredArgs ← drain (temp.length * size)
      liftEach temp.length (lift t) size loweredArgs
      emit W (.fixedLengthListLift t size id)
  | .map id key value => do
      let valueOffset ← valueOffset W key value
      block 2 do
        emit W .iterBasePointer
        let entryAddr ← pop
        readFromMemory key entryAddr default
        readFromMemory value entryAddr valueOffset
      emit W (.mapLift key value id)
termination_by t => (sizeOf t, 0)
decreasing_by
  all_goals first
    | decreasing_tactic
    | with_reducible exact Prod.Lex.left _ _ (Ty.sizeOf_field ‹_›)
    | with_reducible exact Prod.Lex.left _ _ (Ty.sizeOf_tuple ‹_›)
    | with_reducible exact Prod.Lex.left _ _ (Ty.sizeOf_arm ‹_› ‹_›)

def readFromMemory : Ty → B.Operand → ArchitectureSize → Gen B Unit
  | .prim p, addr, offset => emitAndLift W (lift (.prim p)) addr (loadPrim offset p)
  | .string, addr, offset => readListFromMemory W .string (lift .string) addr offset
  | .errorContext, addr, offset =>
    emitAndLift W (lift .errorContext) addr (.i32Load offset)
  | .type _ t, addr, offset => readFromMemory t addr offset
  | .list id t, addr, offset =>
    readListFromMemory W (.list id t) (lift (.list id t)) addr offset
  | .map id k v, addr, offset =>
    readListFromMemory W (.map id k v) (lift (.map id k v)) addr offset
  | .future id t, addr, offset =>
    emitAndLift W (lift (.future id t)) addr (.i32Load offset)
  | .stream id t, addr, offset =>
    emitAndLift W (lift (.stream id t)) addr (.i32Load offset)
  | .handle id h name, addr, offset =>
    emitAndLift W (lift (.handle id h name)) addr (.i32Load offset)
  | .resource _, _, _ => panic .todo
  | .record id name fields, addr, offset => do
      forEachField W (fields.map fun f => (f.2, readFromMemory f.2)) addr offset
      emit W (.recordLift fields name id)
  | .tuple id types, addr, offset => do
      forEachField W (types.map fun t => (t, readFromMemory t)) addr offset
      emit W (.tupleLift types id)
  | .flags id name flags, addr, offset => do
      loadFlags W (W.flagsRepr flags.length) addr offset
      lift (.flags id name flags)
  | .variant id name cases, addr, offset => do
      readVariantArmsFromMemory W offset addr (W.tag cases.length)
        (cases.map fun c => match _h : c.2 with
          | none => none
          | some t => some (t, readFromMemory t))
      emit W (.variantLift cases name id)
  | .option id t, addr, offset => do
      readVariantArmsFromMemory W offset addr .u8 [none, some (t, readFromMemory t)]
      emit W (.optionLift t id)
  | .result id ok err, addr, offset => do
      readVariantArmsFromMemory W offset addr .u8
        [match ok with | none => none | some t => some (t, readFromMemory t),
         match err with | none => none | some t => some (t, readFromMemory t)]
      emit W (.resultLift ok err id)
  | .enum id name cases, addr, offset => do
      push addr
      loadIntrepr W offset (W.tag cases.length)
      lift (.enum id name cases)
  | .unknown _, _, _ => panic .unreachable
  | .fixedLengthList id element size, addr, offset => do
      block 1 do
        emit W .iterBasePointer
        let elemAddr ← pop
        readFromMemory element elemAddr offset
      push addr
      emit W (.fixedLengthListLiftFromMemory element size id)
termination_by t => (sizeOf t, 1)
decreasing_by
  all_goals first
    | decreasing_tactic
    | with_reducible exact Prod.Lex.left _ _ (Ty.sizeOf_field ‹_›)
    | with_reducible exact Prod.Lex.left _ _ (Ty.sizeOf_tuple ‹_›)
    | with_reducible exact Prod.Lex.left _ _ (Ty.sizeOf_arm ‹_› ‹_›)
end

def readResultsFromMemory (result : Option Ty) (addr : B.Operand)
    (offset : ArchitectureSize) : Gen B Unit :=
  forEachField W (result.toList.map fun t => (t, readFromMemory W t)) addr offset

end Generator

end WitBindgen
