import WitBindgen.C.Naming
import WitBindgen.Machine.Lifting

/-!
# Borrows that are dropped by themselves

With `autodrop_borrows`, `FunctionBindgen` writes down every borrow of an imported
resource that an exported function lifts from its arguments: the handle is kept in a
local, where it is lifted, and `Return` declares these locals in front of the body and
drops what they hold behind the call. What is embedded of the body are these locals,
the `switch` statements they are assigned in, and where the user's function is called.

`lift` and `read_from_memory` of the generator descend in the same way, once with the
core values of an argument and once with its address: a `Place` is either.
-/

namespace WitBindgen.C

inductive Direction where
  | import_
  | export_
deriving DecidableEq

namespace Autodrop

/-- What the backend looks up: the parser, the resources by their dealiased ids, and
`all_bits_valid`. -/
structure Resources where
  W : WitParser
  dealias : TypeId → TypeId
  direction : TypeId → Direction
  isListCanonical : Ty → Bool

/-! ## C -/

/-- The expressions that core values are written as. `base` is the element pointer of
a list, in a body that is thrown away. -/
inductive Expr where
  | arg (nth : Nat)
  | base
  | cast (bitcast : Bitcast) (e : Expr)
  | load (bytes : Nat) (e : Expr) (offset : ArchitectureSize)

inductive Stmt where
  /-- `int32_t name = 0;` -/
  | declare (name : String)
  | assign (name : String) (op : Expr)
  | switch (op : Expr) (cases : List (List Stmt))
  | call
  /-- `if (name != 0) { drop(name); }`, with the resource whose `drop` it is. -/
  | drop (name : String) (resource : TypeId)
  | return_

/-- Where a value is lifted from. -/
inductive Place where
  | flat (ops : List Expr)
  | memory (addr : Expr) (offset : ArchitectureSize)

/-! ## Lifting -/

structure FunctionBindgen where
  locals : Ns
  borrowDecls : List String
  borrows : List (String × TypeId)

abbrev Gen := StateT FunctionBindgen (Except WitBindgen.Panic)

def panic {α : Type} (p : WitBindgen.Panic) : Gen α := fun _ => .error p

def tmp (name : String) : Gen String := fun s =>
  .ok ((s.locals.tmpName name).1, { s with locals := (s.locals.tmpName name).2 })

section
variable (R : Resources)

/-- The operand of an instruction that takes one `i32`. -/
def Place.word : Place → Gen Expr
  | .flat (op :: _) => pure op
  | .flat [] => panic .assert
  | .memory addr offset => pure (.load 4 addr offset)

/-- The discriminant of a type with cases. -/
def Place.tag (ty : Ty) : Place → Gen Expr
  | .flat (op :: _) => pure op
  | .flat [] => panic .assert
  | .memory addr offset => pure (.load (R.W.armTag ty).bytes addr offset)

/-- `flat_for_each_record_type` and `read_fields_from_memory`. -/
def Place.fields (types : List Ty) : Place → List Place
  | .flat ops => (chunks (types.map fun t => (R.W.pushFlat t).length) ops).map .flat
  | .memory addr offset =>
    ((R.W.fieldOffsets types).map (·.1)).map fun o => .memory addr (offset + o)

/-- `flat_for_each_variant_arm` and `read_variant_arms_from_memory`: what the arm of a
case with a payload of type `t` starts from. -/
def Place.arm (ty : Ty) (arms : List (Option Ty)) (t : Ty) : Place → Gen Place
  | .flat ops => do
      let dst := R.W.pushFlat t
      let inputs := ops.tail.take dst.length
      match Generator.castAll ((R.W.pushFlat ty).tail.take dst.length) dst with
      | none => panic .unreachable
      | some casts =>
        if casts.any (· ≠ .none) then pure (.flat ((casts.zip inputs).map fun x => .cast x.1 x.2))
        else pure (.flat inputs)
  | .memory addr offset => pure (.memory addr (offset + R.W.payloadOffset (R.W.armTag ty) arms))

/-- The emission of `Instruction::HandleLift`. -/
def handleLift (handle : Handle) (op : Expr) : Gen (List Stmt) :=
  match handle with
  | .own _ => pure []
  | .borrow resource =>
    match R.direction (R.dealias resource) with
    | .export_ => pure []
    | .import_ => do
        let name ← tmp "borrow"
        modify fun s => { s with
          borrowDecls := s.borrowDecls ++ [name]
          borrows := s.borrows ++ [(name, R.dealias resource)] }
        pure [.assign name op]

/-- `any`, of tests that may panic. -/
def anyOf : List (Except WitBindgen.Panic Bool) → Except WitBindgen.Panic Bool
  | [] => .ok false
  | x :: xs => do
      if ← x then pure true else anyOf xs

def containsDroppableBorrow : Ty → Except WitBindgen.Panic Bool
  | .handle _ (.borrow resource) _ => .ok (R.direction (R.dealias resource) = .import_)
  | .record _ _ fields => anyOf (fields.map fun f => containsDroppableBorrow f.2)
  | .tuple _ types => anyOf (types.map fun t => containsDroppableBorrow t)
  | .variant _ _ cases => anyOf (cases.map fun c => match _h : c.2 with
      | none => .ok false
      | some t => containsDroppableBorrow t)
  | .option _ t => containsDroppableBorrow t
  | .result _ ok err => anyOf
      [match ok with | none => .ok false | some t => containsDroppableBorrow t,
       match err with | none => .ok false | some t => containsDroppableBorrow t]
  | .list _ t => containsDroppableBorrow t
  | .type _ t => containsDroppableBorrow t
  | .fixedLengthList _ _ _ => .error .todo
  | .map _ key value => anyOf [containsDroppableBorrow key, containsDroppableBorrow value]
  | _ => .ok false
termination_by t => sizeOf t
decreasing_by
  all_goals first
    | decreasing_tactic
    | with_reducible exact Ty.sizeOf_field ‹_›
    | with_reducible exact Ty.sizeOf_tuple ‹_›
    | with_reducible exact Ty.sizeOf_arm ‹_› ‹_›

def assertNoDroppableBorrows (ty : Ty) : Gen Unit :=
  match containsDroppableBorrow R ty with
  | .error p => panic p
  | .ok true => panic .backend
  | .ok false => pure ()

def liftFields (members : List (Place → Gen (List Stmt))) (places : List Place) : Gen (List Stmt) := do
  let blocks ← (members.zip places).mapM fun x => x.1 x.2
  pure blocks.flatten

/-- The arms of a type with cases, and the local its value is put together in. The
discriminant of a variant goes through the `tag` of that local, which has room for it. -/
def liftArms (name : String) (ty : Ty) (types : List (Option Ty)) (place : Place)
    (arms : List (Option (Ty × (Place → Gen (List Stmt))))) : Gen (List Stmt) := do
  let op ← place.tag R ty
  let blocks ← arms.mapM fun
    | none => pure []
    | some (t, lift) => do lift (← place.arm R ty types t)
  let _ ← tmp name
  pure [.switch op blocks]

def lift : Ty → Place → Gen (List Stmt)
  | .prim _, _ | .string, _ | .flags _ _ _, _ | .enum _ _ _, _ | .future _ _, _ | .stream _ _, _ => pure []
  | .errorContext, _ => panic .backend
  | .type _ t, place => lift t place
  | .list id t, _ => do
      unless R.isListCanonical t do
        let _ ← lift t (.memory .base default)
      assertNoDroppableBorrows R (.list id t)
      pure []
  | .map id key value, _ => do
      let valueOffset ← match (R.W.fieldOffsets [key, value])[1]? with
        | some f => pure f.1
        | none => panic .overflow
      let _ ← lift key (.memory .base default)
      let _ ← lift value (.memory .base valueOffset)
      assertNoDroppableBorrows R (.map id key value)
      pure []
  | .fixedLengthList _ _ _, _ => panic .backend
  | .handle _ handle _, place => do handleLift R handle (← place.word)
  | .record _ _ fields, place =>
    liftFields (fields.map fun f => lift f.2) (place.fields R (fields.map (·.2)))
  | .tuple _ types, place => liftFields (types.map fun t => lift t) (place.fields R types)
  | .variant id name cases, place =>
    liftArms R "variant" (.variant id name cases) (cases.map (·.2)) place
      (cases.map fun c => match _h : c.2 with
        | none => none
        | some t => some (t, lift t))
  | .option id t, place =>
    liftArms R "option" (.option id t) [none, some t] place [none, some (t, lift t)]
  | .result id ok err, place =>
    liftArms R "result" (.result id ok err) [ok, err] place
      [match ok with | none => none | some t => some (t, lift t),
       match err with | none => none | some t => some (t, lift t)]
  | .resource _, _ => panic .todo
  | .unknown _, _ => panic .unreachable
termination_by t => sizeOf t
decreasing_by
  all_goals first
    | decreasing_tactic
    | with_reducible exact Ty.sizeOf_field ‹_›
    | with_reducible exact Ty.sizeOf_tuple ‹_›
    | with_reducible exact Ty.sizeOf_arm ‹_› ‹_›

/-! ## Exported functions -/

/-- A function to export. -/
structure Export where
  func : Function
  async_ : Bool

def Export.sig (f : Export) : WasmSignature :=
  R.W.wasmSignature (if f.async_ then .guestExportAsync else .guestExport) f.func

/-- The loop of `read_from_memory` in `call`. -/
def paramOffsets : ArchitectureSize → List Ty → List ArchitectureSize
  | _, [] => []
  | offset, t :: types =>
    let offset := R.W.alignToArch offset (R.W.align t)
    offset :: paramOffsets (offset + R.W.size t) types

/-- Where the arguments are lifted from. -/
def Export.places (f : Export) : List Place :=
  if (f.sig R).indirectParams then
    (paramOffsets R default f.func.paramTypes).map fun offset => .memory (.arg 0) offset
  else Place.fields R f.func.paramTypes (.flat ((List.range (f.sig R).params.length).map .arg))

/-- `wasm_signature` has one parameter for each core value of the arguments, or one
pointer to all of them. -/
def Export.Flattens (f : Export) : Prop :=
  (f.sig R).indirectParams = false →
    (f.sig R).params.length = (f.func.paramTypes.map fun t => (R.W.pushFlat t).length).sum

/-- Each core parameter takes a name. -/
def argNames : Nat → Ns → Ns
  | 0, ns => ns
  | n + 1, ns => argNames n (ns.tmpName "arg").2

/-- The body of the wrapper. `Return` is emitted for a synchronous function only: an
asynchronous one returns what the call returns, and its results are lowered in another
function. -/
def exportBody (f : Export) : Except WitBindgen.Panic (List Stmt) := do
  let s₀ : FunctionBindgen := ⟨argNames (f.sig R).params.length Ns.empty, [], []⟩
  let (src, s) ← liftFields (f.func.paramTypes.map (lift R)) (f.places R) s₀
  if f.async_ then pure (src ++ [.call, .return_])
  else pure (s.borrowDecls.map .declare ++ src ++ [.call] ++ s.borrows.map (fun b => .drop b.1 b.2) ++ [.return_])

end

/-! ## Running the body -/

/-- What the body is run with: the core arguments, and the memory they point to. -/
structure Args where
  words : List Word
  world : Heap.World WitBindgen.Event

/-- The value of an expression, for pointers of `p` bytes. -/
def Expr.eval (p : Nat) (args : Args) : Expr → Option Word
  | .arg nth => args.words[nth]?
  | .base => none
  | .cast bitcast e => (e.eval p args).bind (bitcast.apply p)
  | .load bytes e offset => do
      let a ← bitsOf .pointer [← e.eval p args]
      match (Heap.loadNat (a + offset.eval p) bytes : Heap.Exec WitBindgen.Event Nat) args.world with
      | .ok (n, _) => some ⟨.i32, n⟩
      | .error _ => none

inductive Effect where
  | called
  | dropped (resource : TypeId) (handle : BitVec 32)
  | returned
deriving DecidableEq

/-- The locals that are declared, and what happened. -/
structure Frame where
  locals : String → Option (BitVec 32)
  effects : List Effect

/-- A local that is not declared cannot be used. -/
def Frame.assign (fr : Frame) (name : String) (n : Nat) : Option Frame :=
  (fr.locals name).map fun _ => { fr with locals := Function.update fr.locals name (some (BitVec.ofNat 32 n)) }

def Frame.drop (fr : Frame) (name : String) (resource : TypeId) : Option Frame :=
  (fr.locals name).map fun h =>
    if h = 0 then fr else { fr with effects := fr.effects ++ [.dropped resource h] }

mutual

def Stmt.run (p : Nat) (args : Args) : Stmt → Frame → Option Frame
  | .declare name, fr => some { fr with locals := Function.update fr.locals name (some 0) }
  | .assign name op, fr => do
      let n ← bitsOf .i32 [← op.eval p args]
      fr.assign name n
  | .switch op cases, fr => do
      let d ← bitsOf .i32 [← op.eval p args]
      runCase p args cases d fr
  | .call, fr => some { fr with effects := fr.effects ++ [.called] }
  | .drop name resource, fr => fr.drop name resource
  | .return_, fr => some { fr with effects := fr.effects ++ [.returned] }

def runAll (p : Nat) (args : Args) : List Stmt → Frame → Option Frame
  | [], fr => some fr
  | s :: rest, fr => do runAll p args rest (← s.run p args fr)

/-- The arm of the given number. -/
def runCase (p : Nat) (args : Args) : List (List Stmt) → Nat → Frame → Option Frame
  | [], _, fr => some fr
  | block :: _, 0, fr => runAll p args block fr
  | _ :: blocks, d + 1, fr => runCase p args blocks d fr

end

mutual

/-- The locals that a statement uses, wherever in it. -/
def Stmt.uses : Stmt → List String
  | .declare _ | .call | .return_ => []
  | .assign name _ | .drop name _ => [name]
  | .switch _ cases => usesCases cases

def usesAll : List Stmt → List String
  | [] => []
  | s :: rest => s.uses ++ usesAll rest

def usesCases : List (List Stmt) → List String
  | [] => []
  | block :: blocks => usesAll block ++ usesCases blocks

end

/-! ## What it is for -/

/-- A borrow of an imported resource is somewhere in the type. -/
inductive HoldsBorrow (R : Resources) : Ty → Prop
  | handle {id resource name} (h : R.direction (R.dealias resource) = .import_) :
      HoldsBorrow R (.handle id (.borrow resource) name)
  | type {id t} (h : HoldsBorrow R t) : HoldsBorrow R (.type id t)
  | list {id t} (h : HoldsBorrow R t) : HoldsBorrow R (.list id t)
  | fixedLengthList {id t n} (h : HoldsBorrow R t) : HoldsBorrow R (.fixedLengthList id t n)
  | key {id key value} (h : HoldsBorrow R key) : HoldsBorrow R (.map id key value)
  | value {id key value} (h : HoldsBorrow R value) : HoldsBorrow R (.map id key value)
  | field {ty types t} (hf : ty.fieldTypes = some types) (ht : t ∈ types) (h : HoldsBorrow R t) :
      HoldsBorrow R ty
  | arm {ty arms t} (ha : ty.arms = some arms) (ht : some t ∈ arms) (h : HoldsBorrow R t) :
      HoldsBorrow R ty

section
variable (R : Resources)

def borrowsOfFields (members : List (Val → List (TypeId × BitVec 32))) (vs : List Val) :
    List (TypeId × BitVec 32) :=
  (members.zip vs).flatMap fun x => x.1 x.2

def borrowsOfArm (arms : List (Option (Val → List (TypeId × BitVec 32)))) (d : Nat) (payload : Val) :
    List (TypeId × BitVec 32) :=
  match arms[d]? with
  | some (some borrows) => borrows payload
  | _ => []

/-- The borrows of imported resources in a value, with their resources. -/
def borrowsOf : Ty → Val → List (TypeId × BitVec 32)
  | .handle _ (.borrow resource) _, .handle h =>
    if R.direction (R.dealias resource) = .import_ then [(R.dealias resource, h)] else []
  | .type _ t, v => borrowsOf t v
  | .list _ t, .list vs | .fixedLengthList _ t _, .list vs => vs.flatMap fun v => borrowsOf t v
  | .map _ key value, .map es => es.flatMap fun e => borrowsOf key e.1 ++ borrowsOf value e.2
  | .record _ _ fields, .record vs => borrowsOfFields (fields.map fun f => borrowsOf f.2) vs
  | .tuple _ types, .record vs => borrowsOfFields (types.map fun t => borrowsOf t) vs
  | .variant _ _ cases, .variant d (some v) =>
    borrowsOfArm (cases.map fun c => match _h : c.2 with
      | none => none
      | some t => some (borrowsOf t)) d v
  | .option _ t, .variant d (some v) => borrowsOfArm [none, some (borrowsOf t)] d v
  | .result _ ok err, .variant d (some v) =>
    borrowsOfArm
      [match ok with | none => none | some t => some (borrowsOf t),
       match err with | none => none | some t => some (borrowsOf t)] d v
  | _, _ => []
termination_by t => sizeOf t
decreasing_by
  all_goals first
    | decreasing_tactic
    | with_reducible exact Ty.sizeOf_field ‹_›
    | with_reducible exact Ty.sizeOf_tuple ‹_›
    | with_reducible exact Ty.sizeOf_arm ‹_› ‹_›

/-- What a place is at run time. -/
inductive Source where
  | words (ws : List Word)
  | memory (a : Nat)

def Place.source (p : Nat) (args : Args) : Place → Option Source
  | .flat ops => (ops.mapM (Expr.eval p args)).map .words
  | .memory addr offset => do
      let a ← bitsOf .pointer [← addr.eval p args]
      some (.memory (a + offset.eval p))

/-- The value at a place. -/
def liftFrom (T : Target) (ty : Ty) : Source → Heap.Exec WitBindgen.Event Val
  | .words ws => liftFlat T ty ws
  | .memory a => load T ty a

abbrev Resources.target (p : Nat) (A : Heap.Allocator (256 ^ p)) : Target := ⟨R.W, p, A⟩

/-- The argument values that the function is called with. -/
def Export.Lifts (f : Export) (p : Nat) (A : Heap.Allocator (256 ^ p)) (args : Args) (vs : List Val) : Prop :=
  args.words.length = (f.sig R).params.length ∧
    List.Forall₂ (fun (x : Ty × Place) v => ∃ src w, x.2.source p args = some src ∧
      liftFrom (R.target p A) x.1 src args.world = .ok (v, w)) (f.func.paramTypes.zip (f.places R)) vs

/-- The locals that the body uses are declared; and whatever it is called with, each
borrow is dropped once, behind the call and before the end. -/
structure Autodrops (f : Export) (p : Nat) (A : Heap.Allocator (256 ^ p)) (body : List Stmt) : Prop where
  declared : ∀ name ∈ usesAll body, .declare name ∈ body
  dropped : ∀ args vs, f.Lifts R p A args vs →
    let borrows := borrowsOfFields (f.func.paramTypes.map (borrowsOf R)) vs
    (∀ b ∈ borrows, b.2 ≠ 0) → ∃ fr, runAll p args body ⟨fun _ => none, []⟩ = some fr ∧
      fr.effects = [.called] ++ borrows.map (fun b => .dropped b.1 b.2) ++ [.returned]

end

end Autodrop

end WitBindgen.C
