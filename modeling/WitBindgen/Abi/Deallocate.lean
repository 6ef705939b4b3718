import WitBindgen.Abi.Generator

/-!
# Deallocation in the ABI generator

`needs_deallocate` decides whether a type owns anything to give back;
`deallocate` does so for a value on the operand stack and
`deallocate_indirect` for one in memory.
-/

namespace WitBindgen

/-- `Iterator::any` over checks that may panic. -/
def anyOk : List (Except Panic Bool) → Except Panic Bool
  | [] => pure false
  | x :: xs => do
      if ← x then pure true else anyOk xs

def needsDeallocate (what : Deallocate) : Ty → Except Panic Bool
  | .prim _ => pure false
  | .string => pure true
  | .errorContext => pure true
  | .list _ _ => pure true
  | .type _ t => needsDeallocate what t
  | .handle _ (.own _) _ => pure what.handles
  | .handle _ (.borrow _) _ => pure false
  | .resource _ => pure false
  | .record _ _ fields => anyOk (fields.map fun f => needsDeallocate what f.2)
  | .tuple _ types => anyOk (types.map fun t => needsDeallocate what t)
  | .variant _ _ cases => anyOk (cases.map fun c => match _h : c.2 with
      | none => pure false
      | some t => needsDeallocate what t)
  | .option _ t => needsDeallocate what t
  | .result _ ok err => anyOk
      [match ok with | none => pure false | some t => needsDeallocate what t,
       match err with | none => pure false | some t => needsDeallocate what t]
  | .flags _ _ _ | .enum _ _ _ => pure false
  | .future _ _ | .stream _ _ => pure what.handles
  | .unknown _ => throw .unreachable
  | .fixedLengthList _ t _ => needsDeallocate what t
  | .map _ _ _ => pure true
termination_by t => sizeOf t
decreasing_by
  all_goals first
    | decreasing_tactic
    | with_reducible exact Ty.sizeOf_field ‹_›
    | with_reducible exact Ty.sizeOf_tuple ‹_›
    | with_reducible exact Ty.sizeOf_arm ‹_› ‹_›

/-- `guest_export_needs_post_return`. -/
def guestExportNeedsPostReturn (func : Function) : Except Panic Bool :=
  match func.result with
  | none => pure false
  | some t => needsDeallocate .lists t

/-- `guest_export_params_have_allocations`. -/
def guestExportParamsHaveAllocations (func : Function) : Except Panic Bool :=
  anyOk (func.params.map fun p => needsDeallocate .lists p.2)

namespace Generator

variable (W : WitParser) {B : Bindgen} (what : Deallocate)

/-- The loads of a pointer and a length in front of a deallocation. -/
def loadList (ty : Ty) (addr : B.Operand) (offset : ArchitectureSize) : Gen B Unit := do
  push addr
  emit W (.pointerLoad offset)
  push addr
  emit W (.lengthLoad (offset + (W.align ty).toSize))

def discard : Gen B Unit := do
  let _ ← pop

/-- The guarded arm for own handles, futures and streams. -/
def dropOwned (ty : Ty) : Gen B Unit :=
  if what.handles then do
    lift W ty
    emit W (.dropHandle ty)
  else discard

/-- The same in memory, where what a handle is not to be dropped is unreachable. -/
def dropOwnedIndirect (ty : Ty) (addr : B.Operand) (offset : ArchitectureSize) :
    Gen B Unit :=
  if what.handles then do
    readFromMemory W ty addr offset
    emit W (.dropHandle ty)
  else panic .unreachable

mutual
def deallocate : Ty → Gen B Unit
  | .string => emit W .guestDeallocateString
  | .prim _ | .errorContext => discard
  | .type _ t => deallocate t
  | .list _ element => do
      block 0 do
        emit W .iterBasePointer
        let elemAddr ← pop
        deallocateIndirect element elemAddr default
      emit W (.guestDeallocateList element)
  | .map _ key value => do
      let valueOffset ← valueOffset W key value
      block 0 do
        emit W .iterBasePointer
        let entryAddr ← pop
        deallocateIndirect key entryAddr default
        deallocateIndirect value entryAddr valueOffset
      emit W (.guestDeallocateMap key value)
  | .handle id (.own r) name => dropOwned W what (.handle id (.own r) name)
  | .future id t => dropOwned W what (.future id t)
  | .stream id t => dropOwned W what (.stream id t)
  | .record id name fields => flatForEachRecordType W (.record id name fields)
      (fields.map fun f => (f.2, deallocate f.2))
  | .tuple id types => flatForEachRecordType W (.tuple id types)
      (types.map fun t => (t, deallocate t))
  | .variant id name cases => do
      flatForEachVariantArm W (.variant id name cases) false
        (cases.map fun c => match _h : c.2 with
          | none => none
          | some t => some (t, deallocate t))
      emit W (.guestDeallocateVariant cases.length)
  | .option id t => do
      flatForEachVariantArm W (.option id t) false [none, some (t, deallocate t)]
      emit W (.guestDeallocateVariant 2)
  | .result id ok err => do
      flatForEachVariantArm W (.result id ok err) false
        [match ok with | none => none | some t => some (t, deallocate t),
         match err with | none => none | some t => some (t, deallocate t)]
      emit W (.guestDeallocateVariant 2)
  | .flags _ _ _ | .enum _ _ _ | .handle _ (.borrow _) _ => discard
  | .resource _ => panic .unreachable
  | .unknown _ => panic .unreachable
  | .fixedLengthList _ _ _ => panic .todo
termination_by t => (sizeOf t, 0)
decreasing_by
  all_goals first
    | decreasing_tactic
    | with_reducible exact Prod.Lex.left _ _ (Ty.sizeOf_field ‹_›)
    | with_reducible exact Prod.Lex.left _ _ (Ty.sizeOf_tuple ‹_›)
    | with_reducible exact Prod.Lex.left _ _ (Ty.sizeOf_arm ‹_› ‹_›)

/-- `deallocate_indirect` on a type that passed the check it starts with. -/
def deallocateIndirectNeeded : Ty → B.Operand → ArchitectureSize → Gen B Unit
  | .string, addr, offset => do
      loadList W .string addr offset
      deallocate .string
  | .prim _, _, _ | .errorContext, _, _ => pure ()
  | .type _ t, addr, offset => deallocateIndirect t addr offset
  | .list id t, addr, offset => do
      loadList W (.list id t) addr offset
      deallocate (.list id t)
  | .map id k v, addr, offset => do
      loadList W (.map id k v) addr offset
      deallocate (.map id k v)
  | .handle id (.own r) name, addr, offset =>
    dropOwnedIndirect W what (.handle id (.own r) name) addr offset
  | .future id t, addr, offset => dropOwnedIndirect W what (.future id t) addr offset
  | .stream id t, addr, offset => dropOwnedIndirect W what (.stream id t) addr offset
  | .handle _ (.borrow _) _, _, _ => panic .unreachable
  | .resource _, _, _ => panic .unreachable
  | .record _ _ fields, addr, offset =>
    forEachField W (fields.map fun f => (f.2, deallocateIndirect f.2)) addr offset
  | .tuple _ types, addr, offset =>
    forEachField W (types.map fun t => (t, deallocateIndirect t)) addr offset
  | .flags _ _ _, _, _ => pure ()
  | .variant _ _ cases, addr, offset => do
      deallocateIndirectVariant W offset addr (W.tag cases.length)
        (cases.map fun c => match _h : c.2 with
          | none => none
          | some t => some (t, deallocateIndirect t))
      emit W (.guestDeallocateVariant cases.length)
  | .option _ t, addr, offset => do
      deallocateIndirectVariant W offset addr .u8 [none, some (t, deallocateIndirect t)]
      emit W (.guestDeallocateVariant 2)
  | .result _ ok err, addr, offset => do
      deallocateIndirectVariant W offset addr .u8
        [match ok with | none => none | some t => some (t, deallocateIndirect t),
         match err with | none => none | some t => some (t, deallocateIndirect t)]
      emit W (.guestDeallocateVariant 2)
  | .enum _ _ _, _, _ => pure ()
  | .unknown _, _, _ => panic .unreachable
  | .fixedLengthList _ _ _, _, _ => pure ()
termination_by t => (sizeOf t, 1)
decreasing_by
  all_goals first
    | decreasing_tactic
    | with_reducible exact Prod.Lex.left _ _ (Ty.sizeOf_field ‹_›)
    | with_reducible exact Prod.Lex.left _ _ (Ty.sizeOf_tuple ‹_›)
    | with_reducible exact Prod.Lex.left _ _ (Ty.sizeOf_arm ‹_› ‹_›)

def deallocateIndirect : Ty → B.Operand → ArchitectureSize → Gen B Unit
  | ty, addr, offset => do
      match needsDeallocate what ty with
      | .error p => panic p
      | .ok false => pure ()
      | .ok true => deallocateIndirectNeeded ty addr offset
termination_by t => (sizeOf t, 2)
end

def assertEmptyStack : Gen B Unit := do
  assert ((← stackLen) = 0)

/-- The loop of `deallocate_in_types` over flat operands. -/
def deallocateFlatTypes : List Ty → List B.Operand → Gen B Unit
  | [], operands => assert (operands.length = 0)
  | ty :: types, operands => do
      let temp ← flatTypes W ty
      extend (← slice temp.length operands)
      deallocate W what ty
      assertEmptyStack
      deallocateFlatTypes types (operands.drop temp.length)

def deallocateInTypes (types : List Ty) (operands : List B.Operand) (indirect : Bool) :
    Gen B Unit :=
  if indirect then
    match operands with
    | [addr] => do
        (((W.fieldOffsets types).map (·.1)).zip types).forM fun (offset, ty) =>
          deallocateIndirect W what ty addr offset
        assertEmptyStack
    | _ => panic .assert
  else deallocateFlatTypes W what types operands

end Generator

/-- `deallocate_lists_in_types` and `deallocate_lists_and_own_in_types`. -/
def deallocateTypes (W : WitParser) {B : Bindgen} (what : Deallocate) (types : List Ty)
    (operands : List B.Operand) (indirect : Bool) (bindgen : B.State) :
    Except Panic (Unit × GenState B) :=
  Generator.deallocateInTypes W what types operands indirect (GenState.new bindgen)

end WitBindgen
