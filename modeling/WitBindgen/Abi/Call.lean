import WitBindgen.Abi.Deallocate

/-!
# Calls in the ABI generator

`Generator::call` adapts a function: an import lowers its arguments, calls the core
function and lifts the result, and an export lifts its arguments, calls the user's
function and lowers the result. `Generator::post_return` gives back what the result of
an export owns.
-/

namespace WitBindgen

namespace Generator

variable (W : WitParser) {B : Bindgen}

/-- `assert!(self.realloc.is_none())` -/
def assertNoRealloc : Gen B Unit := fun s =>
  if s.realloc.isNone then .ok ((), s) else .error .assert

/-! ## Parameters -/

/-- The loops of `call` over the parameters that lie in memory. -/
def forEachParam : List (Ty × (ArchitectureSize → Gen B Unit)) → ArchitectureSize → Gen B Unit
  | [], _ => pure ()
  | (ty, run) :: params, offset => do
      let offset := W.alignToArch offset (W.align ty)
      run offset
      forEachParam params (offset + W.size ty)

/-- The closure `lower_to_memory` of `call`. -/
def lowerToMemory (params : List Ty) (ptr : B.Operand) : Gen B Unit := do
  forEachParam W (params.zipIdx.map fun (ty, nth) => (ty, fun offset => do
    emit W (.getArg nth)
    writeToMemory W ty ptr offset)) default
  push ptr

/-- The closure `read_from_memory` of `call`. -/
def readParamsFromMemory (params : List Ty) : Gen B Unit := do
  let ptr ← pop
  forEachParam W (params.map fun ty => (ty, readFromMemory W ty ptr)) default

/-- Lower the arguments one after the other. -/
def lowerArgs (params : List Ty) : Gen B Unit :=
  params.zipIdx.forM fun (ty, nth) => do
    emit W (.getArg nth)
    lower W ty

def getArgs (offset n : Nat) : Gen B Unit :=
  (List.range' offset n).forM fun nth => emit W (.getArg nth)

/-- Lift the arguments one after the other, from the core argument `offset` on. -/
def liftArgs (maxFlat : Nat) : List Ty → Nat → Gen B Unit
  | [], _ => pure ()
  | ty :: params, offset => do
      let types ← orPanic .unwrap (W.flatTypes ty (some maxFlat))
      getArgs W offset types.length
      lift W ty
      liftArgs maxFlat params (offset + types.length)

/-- The space that indirect arguments are lowered to. -/
def paramsArea (variant : AbiVariant) (info : ElementInfo) : Gen B B.Operand :=
  match variant with
  | .guestImport => returnPointer info.size info.align
  | .guestImportAsync => panic .todo
  | .guestExport => do
      emit W (.malloc "cabi_realloc" info.size info.align)
      pop
  | .guestExportAsync | .guestExportAsyncStackful => panic .todo

/-! ## The arms of `call` -/

def callRealloc : AbiVariant → LiftLower → Bool → Realloc
  | .guestImport, .lowerArgsLiftResults, _ => .none
  | .guestExport, .liftArgsLowerResults, true | .guestExportAsync, .liftArgsLowerResults, true
  | .guestExportAsyncStackful, .liftArgsLowerResults, true => .none
  | _, _, _ => .export_ "cabi_realloc"

/-- What is done with the results of the core function. -/
def liftResults (func : Function) (variant : AbiVariant) (sig : WasmSignature) (async_ : Bool) :
    Gen B Unit :=
  if sig.retptr then do
    let ptr ← match variant with
      | .guestImport => do
          assert sig.results.isEmpty
          takeReturnPointer
      | .guestExport => pop
      | .guestImportAsync | .guestExportAsync | .guestExportAsyncStackful => panic .unreachable
    if variant = .guestExport && async_ then
      push ptr
    else do
      readResultsFromMemory W func.result ptr default
      emit W (.flush (if func.result.isSome then 1 else 0))
  else if !async_ then
    match func.result with
    | some ty => lift W ty
    | none => pure ()
  else pure ()

/-- `LiftLower::LowerArgsLiftResults`. -/
def callLowerArgs (func : Function) (variant : AbiVariant) (sig : WasmSignature)
    (realloc : Realloc) (async_ : Bool) : Gen B Unit := do
  setRealloc (some realloc)
  if sig.indirectParams then do
    let ptr ← paramsArea W variant (W.record func.paramTypes)
    lowerToMemory W func.paramTypes ptr
  else
    lowerArgs W func.paramTypes
  setRealloc none
  if variant = .guestImport && sig.retptr then do
    let info := W.params func.result
    let ptr ← returnPointer info.size info.align
    setReturnPointer (some ptr)
    push ptr
  assert ((← stackLen) = sig.params.length)
  emit W (.callWasm func.name sig)
  liftResults W func variant sig async_
  if async_ then
    emit W (.asyncTaskReturn func.name sig.results)
  else
    emit W (.return_ (if func.result.isSome then 1 else 0) func)

def isExport : AbiVariant → Bool
  | .guestExport | .guestExportAsync | .guestExportAsyncStackful => true
  | .guestImport | .guestImportAsync => false

/-- Where the caller put the arguments is given back. -/
def freeParams (func : Function) (variant : AbiVariant) (sig : WasmSignature) (async_ : Bool) :
    Gen B Unit :=
  if isExport variant && (sig.indirectParams && !async_) then do
    let info := W.record func.paramTypes
    emit W (.getArg 0)
    emit W (.guestDeallocate info.size info.align)
  else pure ()

/-- The core types of an async function's result, `some none` where they are too many
and the result goes through memory. -/
def asyncFlatResults (func : Function) (maxFlat : Nat) (async_ : Bool) :
    Option (Option (List WasmType)) :=
  if async_ then
    some (match func.result with
      | some ty => W.flatTypes ty (some maxFlat)
      | none => some [])
  else none

def lowerResults (func : Function) (variant : AbiVariant) (sig : WasmSignature)
    (toMemory : Bool) : Gen B Unit :=
  match toMemory, sig.retptr, variant with
  | false, _, _ =>
    match func.result with
    | some ty => lower W ty
    | none => pure ()
  | true, true, .guestImport | true, true, .guestImportAsync => do
      emit W (.getArg (sig.params.length - 1))
      let ptr ← pop
      writeParamsToMemory W func.result.toList ptr default
  | true, _, .guestExport | true, _, .guestExportAsync => do
      let info := W.params func.result
      let ptr ← returnPointer info.size info.align
      writeParamsToMemory W func.result.toList ptr default
      push ptr
  | true, _, .guestImport | true, _, .guestImportAsync => panic .unreachable
  | true, _, .guestExportAsyncStackful => panic .todo

def returnResults (func : Function) (variant : AbiVariant) (sig : WasmSignature)
    (flatResults : Option (Option (List WasmType))) (async_ : Bool) : Gen B Unit :=
  let name := "[task-return]" ++ func.name
  match flatResults with
  | none =>
    if async_ then
      match variant with
      | .guestImport | .guestImportAsync => panic .unreachable
      | _ => emit W (.asyncTaskReturn name
          (if maxFlatAsyncParams < sig.results.length then [.pointer] else sig.results))
    else emit W (.return_ sig.results.length func)
  | some results =>
    match variant, async_ with
    | .guestImport, true | .guestImportAsync, true =>
      emit W (.asyncTaskReturn name (results.getD []))
    | _, _ => emit W (.asyncTaskReturn name (results.getD [.pointer]))

/-- `LiftLower::LiftArgsLowerResults`. -/
def callLiftArgs (func : Function) (variant : AbiVariant) (sig : WasmSignature)
    (realloc : Realloc) (async_ : Bool) : Gen B Unit := do
  let maxFlat := if variant = .guestImportAsync && async_ then maxFlatAsyncParams else maxFlatParams
  if sig.indirectParams then do
    emit W (.getArg 0)
    readParamsFromMemory W func.paramTypes
  else
    liftArgs W maxFlat func.paramTypes 0
  emit W (.callInterface func async_)
  let flatResults := asyncFlatResults W func maxFlat async_
  let toMemory := match flatResults with
    | some results => results.isNone
    | none => sig.retptr
  freeParams W func variant sig async_
  setRealloc (some realloc)
  lowerResults W func variant sig toMemory
  returnResults W func variant sig flatResults async_
  setRealloc none

def call (func : Function) (variant : AbiVariant) (liftLower : LiftLower) (async_ : Bool) :
    Gen B Unit := do
  let sig := W.wasmSignature variant func
  let realloc := callRealloc variant liftLower async_
  assertNoRealloc
  match liftLower with
  | .lowerArgsLiftResults => callLowerArgs W func variant sig realloc async_
  | .liftArgsLowerResults => callLiftArgs W func variant sig realloc async_
  assertNoRealloc
  assertEmptyStack

def postReturn (func : Function) : Gen B Unit := do
  assert (W.wasmSignature .guestExport func).retptr
  emit W (.getArg 0)
  let addr ← pop
  deallocateInTypes W .lists func.result.toList [addr] true
  emit W (.return_ 0 func)

end Generator

/-- `abi::call`. -/
def call (W : WitParser) {B : Bindgen} (variant : AbiVariant) (liftLower : LiftLower)
    (func : Function) (async_ : Bool) (bindgen : B.State) : Except Panic (Unit × GenState B) :=
  Generator.call W func variant liftLower async_ (GenState.new bindgen)

/-- `abi::post_return`. -/
def postReturn (W : WitParser) {B : Bindgen} (func : Function) (bindgen : B.State) :
    Except Panic (Unit × GenState B) :=
  Generator.postReturn W func (GenState.new bindgen)

namespace Abi

/-- `abi::lower_to_memory`. -/
def lowerToMemory (W : WitParser) {B : Bindgen} (address value : B.Operand) (ty : Ty)
    (bindgen : B.State) : Except Panic B.State := do
  let (_, s) ← Generator.writeToMemory W ty address default
    { GenState.new bindgen with stack := [value], realloc := some (.export_ "cabi_realloc") }
  return s.bindgen

/-- `abi::lower_flat`. -/
def lowerFlat (W : WitParser) {B : Bindgen} (value : B.Operand) (ty : Ty) (bindgen : B.State) :
    Except Panic (List B.Operand × B.State) := do
  let (_, s) ← Generator.lower W ty
    { GenState.new bindgen with stack := [value], realloc := some (.export_ "cabi_realloc") }
  return (s.stack, s.bindgen)

/-- `abi::lift_from_memory`. -/
def liftFromMemory (W : WitParser) {B : Bindgen} (address : B.Operand) (ty : Ty)
    (bindgen : B.State) : Except Panic (B.Operand × B.State) := do
  let (_, s) ← Generator.readFromMemory W ty address default (GenState.new bindgen)
  let (x, s) ← Generator.pop s
  return (x, s.bindgen)

end Abi

end WitBindgen
