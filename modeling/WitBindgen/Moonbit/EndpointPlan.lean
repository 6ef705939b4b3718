import WitBindgen.Abi.Traces

/-!
# The endpoint plan of a function

The MoonBit backend numbers the futures and streams of a function, its endpoints, before it
writes any code for it: `async_endpoint_sites` makes one site for each, in the order in which
`find_futures_and_streams` lists them. The traversals of the ABI generator then ask for the
site of each future and stream they come across, and `next_site` answers with the first one
behind a cursor that has the same kind and the same type. What is modelled of the code that
a traversal writes are the helpers of endpoints it calls.
-/

namespace WitBindgen.Moonbit

/-- What is asked of `wit_parser`: the definition behind an id, and
`Function::find_futures_and_streams`. -/
structure Resolve where
  types : TypeId → Ty
  findFuturesAndStreams : Function → List TypeId

end WitBindgen.Moonbit

namespace WitBindgen

/-- The types of the parameters and of the result. -/
def Function.types (func : Function) : List Ty := func.paramTypes ++ func.result.toList

namespace Moonbit

/-! ## Sites -/

/-- The pushes of several searches, one after the other. -/
def pushAll : List (Except Panic (List TypeId)) → Except Panic (List TypeId)
  | [] => pure []
  | x :: xs => do
      let found ← x
      let rest ← pushAll xs
      return found ++ rest

/-- `find_futures_and_streams_in_type`, which pushes what it finds. -/
def findFuturesAndStreamsInType : Ty → Except Panic (List TypeId)
  | .prim _ | .string | .errorContext => pure []
  | .resource _ | .handle _ _ _ | .flags _ _ _ | .enum _ _ _ => pure []
  | .record _ _ fields => pushAll (fields.map fun f => findFuturesAndStreamsInType f.2)
  | .tuple _ types => pushAll (types.map fun t => findFuturesAndStreamsInType t)
  | .variant _ _ cases => pushAll (cases.map fun c => match _h : c.2 with
      | none => pure []
      | some t => findFuturesAndStreamsInType t)
  | .option _ t | .list _ t | .fixedLengthList _ t _ | .type _ t => findFuturesAndStreamsInType t
  | .map _ key value =>
    pushAll [findFuturesAndStreamsInType key, findFuturesAndStreamsInType value]
  | .result _ ok err => pushAll
      [match ok with | none => pure [] | some t => findFuturesAndStreamsInType t,
       match err with | none => pure [] | some t => findFuturesAndStreamsInType t]
  | .future id payload | .stream id payload => do
      let nested ← match payload with
        | none => pure []
        | some t => findFuturesAndStreamsInType t
      return nested ++ [id]
  | .unknown _ => throw .unreachable
termination_by t => sizeOf t
decreasing_by
  all_goals first
    | decreasing_tactic
    | with_reducible exact Ty.sizeOf_field ‹_›
    | with_reducible exact Ty.sizeOf_tuple ‹_›
    | with_reducible exact Ty.sizeOf_arm ‹_› ‹_›

structure AsyncEndpointSite where
  kind : PayloadFor
  ty : TypeId
  index : Nat
  /-- The range `start..end` of the sites in the payload. -/
  payloadSites : Nat × Nat
deriving DecidableEq

/-- `match &resolve.types[ty].kind` on a future or a stream. -/
def endpointOf (R : Resolve) (ty : TypeId) : Except Panic Endpoint :=
  match (R.types ty).endpoint? with
  | some e => pure e
  | none => throw .unreachable

/-- One turn of the second loop of `async_endpoint_sites`. It reads no more than the types of
the other sites, which the loop leaves as they are. -/
def withPayloadSites (R : Resolve) (sites : List AsyncEndpointSite) (site : AsyncEndpointSite) :
    Except Panic AsyncEndpointSite := do
  match (← endpointOf R site.ty).payload with
  | none => return { site with payloadSites := (site.index, site.index) }
  | some payloadType =>
    let payloadTypes ← findFuturesAndStreamsInType payloadType
    if payloadTypes.length ≤ site.index then
      let start := site.index - payloadTypes.length
      if ((sites.drop start).take payloadTypes.length).map (·.ty) = payloadTypes then
        return { site with payloadSites := (start, site.index) }
      else throw .assert
    else throw .unwrap

def asyncEndpointSites (R : Resolve) (func : Function) :
    Except Panic (List AsyncEndpointSite) := do
  let sites ← (R.findFuturesAndStreams func).zipIdx.mapM fun (ty, index) => do
    return { kind := (← endpointOf R ty).kind, ty, index, payloadSites := (index, index) }
  sites.mapM (withPayloadSites R sites)

/-- `AsyncFunctionPlan::payload_sites`. -/
def payloadSites (sites : List AsyncEndpointSite) (site : AsyncEndpointSite) :
    List AsyncEndpointSite :=
  (sites.drop site.payloadSites.1).take (site.payloadSites.2 - site.payloadSites.1)

/-- `type_contains_endpoint_fixed_length_list_combination`: `preprocess` refuses a world for
any of whose types it says yes. -/
def typeContainsCombination (insideFixedLengthList insideEndpoint : Bool) :
    Ty → Except Panic Bool
  | .prim _ | .string | .errorContext => pure false
  | .future _ payload | .stream _ payload =>
    if insideFixedLengthList then pure true
    else match payload with
      | none => pure false
      | some t => typeContainsCombination false true t
  | .fixedLengthList _ t _ =>
    if insideEndpoint then pure true else typeContainsCombination true false t
  | .record _ _ fields => anyOk (fields.map fun f =>
    typeContainsCombination insideFixedLengthList insideEndpoint f.2)
  | .tuple _ types => anyOk (types.map fun t =>
    typeContainsCombination insideFixedLengthList insideEndpoint t)
  | .variant _ _ cases => anyOk (cases.map fun c => match _h : c.2 with
      | none => pure false
      | some t => typeContainsCombination insideFixedLengthList insideEndpoint t)
  | .option _ t | .list _ t | .type _ t =>
    typeContainsCombination insideFixedLengthList insideEndpoint t
  | .map _ key value => anyOk
      [typeContainsCombination insideFixedLengthList insideEndpoint key,
       typeContainsCombination insideFixedLengthList insideEndpoint value]
  | .result _ ok err => anyOk
      [match ok with
        | none => pure false
        | some t => typeContainsCombination insideFixedLengthList insideEndpoint t,
       match err with
        | none => pure false
        | some t => typeContainsCombination insideFixedLengthList insideEndpoint t]
  | .resource _ | .handle _ _ _ | .flags _ _ _ | .enum _ _ _ => pure false
  | .unknown _ => throw .unreachable
termination_by t => sizeOf t
decreasing_by
  all_goals first
    | decreasing_tactic
    | with_reducible exact Ty.sizeOf_field ‹_›
    | with_reducible exact Ty.sizeOf_tuple ‹_›
    | with_reducible exact Ty.sizeOf_arm ‹_› ‹_›

/-- `preprocess` lets the types of the function through. -/
def Accepted (func : Function) : Prop :=
  ∀ ty ∈ func.types, typeContainsCombination false false ty = .ok false

/-! ## Queries -/

structure EndpointUse where
  lift : Bool
  lower : Bool
  lowerCommitted : Bool
deriving DecidableEq

inductive EndpointOperation where
  | lift | lower | lowerCommitted
deriving DecidableEq

def EndpointUse.mark (u : EndpointUse) : EndpointOperation → EndpointUse
  | .lift => { u with lift := true }
  | .lower => { u with lower := true }
  | .lowerCommitted => { u with lower := true, lowerCommitted := true }

/-- `AsyncTaskReturnState`, without the texts it carries. -/
inductive AsyncTaskReturnState where
  | none | generating | emitted
deriving DecidableEq

structure AsyncFunctionState where
  taskReturn : AsyncTaskReturnState
  endpointSites : List AsyncEndpointSite
  endpointUses : List EndpointUse
  nextEndpoint : Nat

def AsyncFunctionState.fromSites (sites : List AsyncEndpointSite) : AsyncFunctionState :=
  { taskReturn := .none, endpointSites := sites,
    endpointUses := List.replicate sites.length ⟨false, false, false⟩, nextEndpoint := 0 }

/-- A failure of the plan itself, its `unreachable!` or one of its assertions, is
`Panic.backend`. -/
def AsyncFunctionState.nextSite (s : AsyncFunctionState) (kind : PayloadFor) (ty : TypeId)
    (operation : EndpointOperation) : Except Panic (AsyncEndpointSite × AsyncFunctionState) :=
  match (s.endpointSites.drop s.nextEndpoint).findIdx?
      fun site => site.kind = kind ∧ site.ty = ty with
  | none => throw .backend
  | some offset =>
    let index := s.nextEndpoint + offset
    match s.endpointSites[index]?, s.endpointUses[index]? with
    | some site, some use => .ok (site, { s with
        nextEndpoint := index + 1
        endpointUses := s.endpointUses.set index (use.mark operation) })
    | _, _ => throw .backend

/-- The loops that note the uses of another state, `used.lift |= other.lift` and
`used.lower |= other.lower`. -/
def mergeUses : List EndpointUse → List EndpointUse → List EndpointUse
  | used :: uses, other :: others =>
    { used with lift := used.lift || other.lift, lower := used.lower || other.lower } ::
      mergeUses uses others
  | uses, _ => uses

/-- What the uses of an endpoint ask of one in its payload. -/
def EndpointUse.propagate (used owner : EndpointUse) : EndpointUse :=
  { used with
    lift := used.lift || owner.lift || owner.lower
    lower := used.lower || owner.lower }

/-- The loop over the payload sites of an owner. -/
def propagateTo (owner : EndpointUse) : List Nat → List EndpointUse → Except Panic (List EndpointUse)
  | [], uses => pure uses
  | index :: indices, uses => match uses[index]? with
    | none => throw .overflow
    | some used => propagateTo owner indices (uses.set index (used.propagate owner))

/-- The loop of `endpoint_uses` over the sites, from the last to the first. -/
def propagateUses : List (AsyncEndpointSite × Nat) → List EndpointUse →
    Except Panic (List EndpointUse)
  | [], uses => pure uses
  | (site, index) :: sites, uses => match uses[index]? with
    | none => throw .overflow
    | some owner => do
        let payload := List.range' site.payloadSites.1 (site.payloadSites.2 - site.payloadSites.1)
        propagateUses sites (← propagateTo owner payload uses)

/-- `AsyncFunctionPlan::endpoint_uses`. -/
def endpointUses (sites : List AsyncEndpointSite) (s : AsyncFunctionState) :
    Except Panic (List EndpointUse) :=
  if sites.length = s.endpointUses.length then propagateUses sites.zipIdx.reverse s.endpointUses
  else throw .assert

/-! ## The backend -/

/-- The helper functions of an endpoint that are called by name. -/
inductive Helper where
  | lift | commit | lower | lowerCommitted
deriving DecidableEq

/-- A call to a helper of an endpoint, in the code written. -/
structure Call where
  helper : Helper
  site : AsyncEndpointSite
deriving DecidableEq

/-- The fields of `FunctionBindgen` that concern endpoints, and the calls written so far. -/
structure BindgenState where
  asyncState : AsyncFunctionState
  commitEndpoints : Bool
  calls : List Call

namespace BindgenState

/-- `emit_endpoint_lift`. -/
def emitEndpointLift (s : BindgenState) (kind : PayloadFor) (ty : TypeId) :
    Except Panic BindgenState := do
  let (site, asyncState) ← s.asyncState.nextSite kind ty .lift
  let helper := if s.commitEndpoints then Helper.commit else Helper.lift
  return { s with asyncState, calls := s.calls ++ [⟨helper, site⟩] }

/-- `emit_endpoint_lower`. -/
def emitEndpointLower (s : BindgenState) (kind : PayloadFor) (ty : TypeId) :
    Except Panic BindgenState := do
  let committed := s.asyncState.taskReturn = .generating
  let operation := if committed then EndpointOperation.lowerCommitted else EndpointOperation.lower
  let (site, asyncState) ← s.asyncState.nextSite kind ty operation
  let helper := if committed then Helper.lowerCommitted else Helper.lower
  return { s with asyncState, calls := s.calls ++ [⟨helper, site⟩] }

/-- `emit_async_call_interface`, as far as the task return goes. -/
def emitAsyncCallInterface (s : BindgenState) : Except Panic BindgenState :=
  if s.asyncState.taskReturn = .none then
    pure { s with asyncState := { s.asyncState with taskReturn := .generating } }
  else throw .backend

/-- `capture_task_return`. -/
def captureTaskReturn (s : BindgenState) : Except Panic BindgenState :=
  if s.asyncState.taskReturn = .generating then
    pure { s with asyncState := { s.asyncState with taskReturn := .emitted } }
  else throw .backend

/-- `emit` on the instructions that concern endpoints. -/
def step (s : BindgenState) : Instruction → Except Panic BindgenState
  | .futureLift _ ty => s.emitEndpointLift .future ty
  | .streamLift _ ty => s.emitEndpointLift .stream ty
  | .futureLower _ ty => s.emitEndpointLower .future ty
  | .streamLower _ ty => s.emitEndpointLower .stream ty
  | .callInterface _ true => s.emitAsyncCallInterface
  | .asyncTaskReturn _ _ => s.captureTaskReturn
  | _ => pure s

end BindgenState

/-- `is_list_canonical`. -/
def isListCanonical : Ty → Bool
  | .prim .u8 | .prim .u32 | .prim .u64 | .prim .s32 | .prim .s64 | .prim .f32 | .prim .f64 => true
  | _ => false

/-- `FunctionBindgen`, where `onCall` is what `CallWasm` does beside writing the call. -/
abbrev bindgen (W : WitParser)
    (onCall : WasmSignature → List Unit → BindgenState → Except Panic BindgenState) : Bindgen where
  State := BindgenState
  Operand := Unit
  emit i operands s := do
    let s ← match i with
      | .callWasm _ sig => onCall sig operands s
      | i => s.step i
    return (List.replicate (i.resultsLen W) (), s)
  returnPointer _ _ s := pure ((), s)
  pushBlock s := pure s
  finishBlock _ s := pure s
  isListCanonical := isListCanonical

/-- The backend of all traversals that make no call of their own. -/
abbrev functionBindgen (W : WitParser) : Bindgen := bindgen W fun _ _ s => pure s

/-! ## Traversals -/

/-- What a traversal leaves: the calls it wrote, and the state of the plan. -/
abbrev Written := Except Panic (List Call × AsyncFunctionState)

/-- `deallocate_lists_and_own_with_state`, and with `commit` set
`commit_lists_and_endpoints_with_state`. -/
def deallocateWithState (W : WitParser) (commit : Bool) (types : List Ty) (operands : List Unit)
    (indirect : Bool) (endpointSites : List AsyncEndpointSite) : Written := do
  let (_, f) ← deallocateTypes W (B := functionBindgen W) .listsAndOwn types operands indirect
    ⟨.fromSites endpointSites, commit, []⟩
  return (f.bindgen.calls, f.bindgen.asyncState)

/-- `lift_from_memory`. -/
def liftFromMemory (W : WitParser) (ty : Ty) (asyncState : AsyncFunctionState) : Written := do
  let (_, f) ← Abi.liftFromMemory W (B := functionBindgen W) () ty ⟨asyncState, false, []⟩
  return (f.calls, f.asyncState)

/-- `lower_to_memory`. -/
def lowerToMemory (W : WitParser) (ty : Ty) (asyncState : AsyncFunctionState) : Written := do
  let f ← Abi.lowerToMemory W (B := functionBindgen W) () () ty ⟨asyncState, false, []⟩
  return (f.calls, f.asyncState)

/-- The parameters lowered to memory one after the other. -/
def lowerAllToMemory (W : WitParser) : List Ty → AsyncFunctionState → Written
  | [], asyncState => pure ([], asyncState)
  | ty :: types, asyncState => do
      let (calls, asyncState) ← lowerToMemory W ty asyncState
      let (more, asyncState) ← lowerAllToMemory W types asyncState
      return (calls ++ more, asyncState)

/-- The parameters lowered flat one after the other, with the core values they become. -/
def lowerAllFlat (W : WitParser) :
    List Ty → BindgenState → Except Panic (List Unit × BindgenState)
  | [], f => pure ([], f)
  | ty :: types, f => do
      let (values, f) ← Abi.lowerFlat W (B := functionBindgen W) () ty f
      let (more, f) ← lowerAllFlat W types f
      return (values ++ more, f)

/-- The parameters that are lowered to memory: of several, those that come with an offset. -/
def indirectTypes (W : WitParser) : List Ty → List Ty
  | [] => []
  | [ty] => [ty]
  | types => (W.fieldOffsets types).map (·.2)

/-- The lowered parameters of an async import. -/
structure LoweredParams where
  operands : List Unit
  calls : List Call
  asyncState : AsyncFunctionState

/-- The first part of `generate_async_import_function`. -/
def lowerParams (W : WitParser) (sites : List AsyncEndpointSite) (func : Function)
    (sig : WasmSignature) : Except Panic LoweredParams :=
  if sig.indirectParams then do
    let (calls, asyncState) ←
      lowerAllToMemory W (indirectTypes W func.paramTypes) (.fromSites sites)
    return { operands := if func.paramTypes.isEmpty then [] else [()], calls, asyncState }
  else do
    let (operands, f) ← lowerAllFlat W func.paramTypes ⟨.fromSites sites, false, []⟩
    return { operands, calls := f.calls, asyncState := f.asyncState }

/-- What `generate_async_import_function` writes, by the part of the body it is for. -/
structure AsyncImportBody where
  lowered : List Call
  commitArguments : List Call
  rejectArguments : List Call
  dropReturnedResult : List Call
  lifted : List Call
  state : AsyncFunctionState

/-- `deallocate_lists_and_own_with_state` on a returned result, from the first site on. -/
def dropReturnedResult (W : WitParser) (sites : List AsyncEndpointSite) (ty : Ty) : Written :=
  deallocateWithState W false [ty] [()] true sites

def generateAsyncImportFunction (W : WitParser) (sites : List AsyncEndpointSite) (func : Function)
    (sig : WasmSignature) : Except Panic AsyncImportBody := do
  let params ← lowerParams W sites func sig
  let (commitArguments, commitState) ←
    deallocateWithState W true func.paramTypes params.operands sig.indirectParams sites
  let (rejectArguments, rejectionState) ←
    deallocateWithState W false func.paramTypes params.operands sig.indirectParams sites
  let uses := mergeUses (mergeUses params.asyncState.endpointUses rejectionState.endpointUses)
    commitState.endpointUses
  match func.result with
  | some ty => do
      let (dropped, dropResultState) ← dropReturnedResult W sites ty
      let asyncState := { params.asyncState with
        endpointUses := mergeUses uses dropResultState.endpointUses }
      let (lifted, state) ← liftFromMemory W ty asyncState
      return { lowered := params.calls, commitArguments, rejectArguments,
               dropReturnedResult := dropped, lifted, state }
  | none =>
    return { lowered := params.calls, commitArguments, rejectArguments,
             dropReturnedResult := [], lifted := [],
             state := { params.asyncState with endpointUses := uses } }

/-- `commit_sync_import_arguments`, for an import whose plan has endpoints. -/
def commitSyncImportArguments (W : WitParser) (argumentTypes : List Ty) (sig : WasmSignature)
    (operands : List Unit) (s : BindgenState) : Except Panic BindgenState := do
  let argumentCount :=
    if sig.indirectParams then 1 else operands.length - (if sig.retptr then 1 else 0)
  let (_, f) ← deallocateTypes W (B := functionBindgen W) .listsAndOwn argumentTypes
    (operands.take argumentCount) sig.indirectParams
    { s with asyncState := .fromSites s.asyncState.endpointSites, commitEndpoints := true }
  return { s with
    asyncState := { s.asyncState with
      endpointUses := mergeUses s.asyncState.endpointUses f.bindgen.asyncState.endpointUses }
    calls := f.bindgen.calls }

/-- `import`, where the function is not async. -/
def importSync (W : WitParser) (sites : List AsyncEndpointSite) (func : Function) : Written := do
  let onCall := if sites.isEmpty then fun _ _ s => pure s
    else commitSyncImportArguments W func.paramTypes
  let (_, f) ← call W (B := bindgen W onCall) .guestImport .lowerArgsLiftResults func false
    ⟨.fromSites sites, false, []⟩
  return (f.bindgen.calls, f.bindgen.asyncState)

/-- `export`. -/
def export_ (W : WitParser) (sites : List AsyncEndpointSite) (func : Function) (async_ : Bool) :
    Written := do
  let (_, f) ← call W (B := functionBindgen W)
    (if async_ then .guestExportAsync else .guestExport) .liftArgsLowerResults func async_
    ⟨.fromSites sites, false, []⟩
  return (f.bindgen.calls, f.bindgen.asyncState)

end Moonbit

end WitBindgen
