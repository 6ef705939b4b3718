import WitBindgen.Library.Runs

/-!
# Resources that a Rust component exports

An exported resource `Thing` keeps the user's value in a box, `Option<T>`, whose
address is the representation that the component model knows. A value of type
`Thing` owns a handle of the component's table, in a cell that holds `u32::MAX`
once the handle was taken, and drops the handle when it goes out of scope.

Dropping a handle of one's own resource re-enters the component: the destructor
frees the box and drops the user's value, and so runs the user's `Drop`, which
may do anything with other instances before it returns.
-/

namespace WitBindgen.Rust

/-- `u32::MAX`: the handle was taken. -/
def taken : Nat := 4294967295

/-- The number of handles a component model table can have. -/
def maxHandles : Nat := 268435456

/-! ## State -/

/-- The `Option<T>` in a box. The user's values are numbered like the instances
they were created for. -/
structure Cell where
  inst : Nat
  value : Option Nat

/-- An own handle in the component's table. `id` tells it from those that had
the same index before. Here and below `inst` is the instance that is meant: the
host and the code know the representation or the handle only. -/
structure Entry where
  rep : Nat
  inst : Nat
  id : Nat

/-- `Thing`, around a `Resource<Thing>`. -/
structure Thing where
  handle : Nat
  inst : Nat

/-- `ThingBorrow<'a>`. -/
structure ThingBorrow where
  rep : Nat
  inst : Nat

/-- Where a `&T` or `&mut T` was got from. -/
inductive Source where
  | thing (w : Nat)
  | borrow (b : Nat)
deriving DecidableEq

structure Ref where
  source : Source
  rep : Nat
  inst : Nat

/-- What runs now: the user's code or the host, or on the way of a handle that
is dropped `WasmResource::drop`, the destructor, or the end of the scope of its
`_rep`. -/
inductive Running where
  | user
  | drop (handle : Nat)
  | dtor (rep : Nat)
  | scope (rep : Option Nat)

/-- What waits for that: the `Drop` of a user's value has called something, or
`into_inner` is about to return. -/
inductive Frame where
  | value (v : Nat)
  | intoInner (v : Nat)

def Frame.inst : Frame → Nat
  | .value v | .intoInner v => v

structure State where
  cells : Nat → Option Cell
  table : Nat → Option Entry
  /-- The handles that were lowered and are not handed over yet. -/
  lowered : Nat → Bool
  /-- The representations whose own handle another component has. -/
  abroad : Nat → Option Nat
  things : Nat → Option Thing
  borrows : Nat → Option ThingBorrow
  refs : Nat → Option Ref
  running : Running
  stack : List Frame
  instances : Nat
  entries : Nat
  dropped : List Nat
  returned : List Nat
  freed : List Nat
  resourceDrops : List Nat
  givenAway : List Nat

def State.initial : State where
  cells _ := none
  table _ := none
  lowered _ := false
  abroad _ := none
  things _ := none
  borrows _ := none
  refs _ := none
  running := .user
  stack := []
  instances := 0
  entries := 0
  dropped := []
  returned := []
  freed := []
  resourceDrops := []
  givenAway := []

/-- A map changed at `k`. -/
def put {α : Type} (f : Nat → α) (k : Nat) (x : α) : Nat → α := fun j => if j = k then x else f j

/-! ## The code -/

inductive Fault where
  /-- The host does not know the handle. -/
  | trap
  /-- Access to memory that is not allocated. -/
  | badPointer
  /-- `Option::unwrap` on `None`. -/
  | unwrapNone
  /-- Not a Rust program: there is no such object. -/
  | noObject
deriving DecidableEq

namespace State

variable (s : State)

def thing (w : Nat) : Except Fault Thing := (s.things w).elim (.error .noObject) .ok

/-- `[resource-rep]`. -/
def resourceRep (handle : Nat) : Except Fault Nat :=
  (s.table handle).elim (.error .trap) fun e => .ok e.rep

def cell (rep : Nat) : Except Fault Cell := (s.cells rep).elim (.error .badPointer) .ok

/-- `rep_as_ref` and `rep_as_mut`. -/
def repAsRef (rep : Nat) : Except Fault Nat :=
  s.cell rep >>= fun c => c.value.elim (.error .unwrapNone) .ok

/-- `Thing::new`: a box, a handle for it, a `Thing` for the handle. -/
def new (w rep handle : Nat) : State :=
  { s with
    cells := put s.cells rep (some ⟨s.instances, some s.instances⟩)
    table := put s.table handle (some ⟨rep, s.instances, s.entries⟩)
    things := put s.things w (some ⟨handle, s.instances⟩)
    instances := s.instances + 1
    entries := s.entries + 1 }

/-- `Thing::get` and `Thing::get_mut`. -/
def get (w r : Nat) : Except Fault State := do
  let x ← s.thing w
  let rep ← s.resourceRep x.handle
  let _ ← s.repAsRef rep
  .ok { s with refs := put s.refs r (some ⟨.thing w, rep, x.inst⟩) }

/-- `ThingBorrow::get`. -/
def borrowGet (b r : Nat) : Except Fault State := do
  let x ← (s.borrows b).elim (.error .noObject) .ok
  let _ ← s.repAsRef x.rep
  .ok { s with refs := put s.refs r (some ⟨.borrow b, x.rep, x.inst⟩) }

/-- What the reference refers to. -/
def deref (r : Nat) : Except Fault Nat := do
  let y ← (s.refs r).elim (.error .noObject) .ok
  let c ← s.cell y.rep
  c.value.elim (.error .badPointer) .ok

/-- `Drop for Resource`, for a `Thing` that is gone already. -/
def dropResource (x : Thing) : State :=
  if x.handle = taken then s else { s with running := .drop x.handle }

/-- `Thing::into_inner`: `rep_take`, then the end of the scope of `self`. -/
def intoInner (w : Nat) : Except Fault State := do
  let x ← s.thing w
  let rep ← s.resourceRep x.handle
  let v ← s.repAsRef rep
  let c ← s.cell rep
  .ok ({ s with
    cells := put s.cells rep (some { c with value := none })
    things := put s.things w none
    stack := .intoInner v :: s.stack }.dropResource x)

/-- The end of the scope of a `Thing`. -/
def dropThing (w : Nat) : Except Fault State := do
  let x ← s.thing w
  .ok ({ s with things := put s.things w none }.dropResource x)

/-- `take_handle`: the handle is swapped for the sentinel and handed to the host. -/
def takeHandle (w : Nat) : Except Fault State := do
  let x ← s.thing w
  .ok { s with
    things := put s.things w (some { x with handle := taken })
    lowered := put s.lowered x.handle true }

/-- The host takes what was lowered. -/
def handOver (handle : Nat) : Except Fault State := do
  let e ← (s.table handle).elim (.error .trap) .ok
  .ok { s with
    table := put s.table handle none
    lowered := put s.lowered handle false
    abroad := put s.abroad e.rep (some e.inst)
    givenAway := e.id :: s.givenAway }

/-- `from_handle` on what was lowered and never read. -/
def takeBack (handle w : Nat) : Except Fault State := do
  let e ← (s.table handle).elim (.error .trap) .ok
  .ok { s with
    lowered := put s.lowered handle false
    things := put s.things w (some ⟨handle, e.inst⟩) }

/-- `from_handle` on an own handle that the host gave the component. -/
def liftOwn (rep handle w : Nat) : Except Fault State := do
  let i ← (s.abroad rep).elim (.error .noObject) .ok
  .ok { s with
    abroad := put s.abroad rep none
    table := put s.table handle (some ⟨rep, i, s.entries⟩)
    things := put s.things w (some ⟨handle, i⟩)
    entries := s.entries + 1 }

/-- `ThingBorrow::lift`: the component that implements a resource is given its
representation. -/
def liftBorrow (rep b : Nat) : Except Fault State := do
  let i ← (s.abroad rep).elim (.error .noObject) .ok
  .ok { s with borrows := put s.borrows b (some ⟨rep, i⟩) }

/-- What runs returns to the frame that waits for it, if that is `into_inner`;
otherwise to the user's code. -/
def return_ : State :=
  match s.stack with
  | .intoInner v :: stack =>
    { s with running := .user, stack := stack, returned := v :: s.returned }
  | _ => { s with running := .user }

/-- One step of what runs. -/
def resume : Except Fault State :=
  match s.running with
  | .drop handle =>
    -- `[resource-drop]` of an own handle calls the destructor
    match s.table handle with
    | none => .error .trap
    | some e => .ok { s with
        table := put s.table handle none
        resourceDrops := e.id :: s.resourceDrops
        running := .dtor e.rep }
  | .dtor rep =>
    -- `*Box::from_raw(handle)`: the value moves out and the box is freed
    match s.cells rep with
    | none => .error .badPointer
    | some c => .ok { s with
        cells := put s.cells rep none
        freed := c.inst :: s.freed
        running := .scope c.value }
  | .scope none => .ok s.return_
  | .scope (some v) => .ok { s with running := .user, stack := .value v :: s.stack }
  | .user =>
    -- the user's `Drop` returns
    match s.stack with
    | .value v :: stack => .ok { s with stack := stack, dropped := v :: s.dropped }.return_
    | _ => .error .noObject

end State

/-! ## What may happen -/

/-- The user's code, or the host between calls, or the next step of what runs. -/
inductive Event where
  | new (w rep handle : Nat)
  | get (w r : Nat)
  | getMut (w r : Nat)
  | deref (r : Nat)
  | endRef (r : Nat)
  | intoInner (w : Nat)
  | dropThing (w : Nat)
  | takeHandle (w : Nat)
  | handOver (handle : Nat)
  | takeBack (handle w : Nat)
  | liftOwn (rep handle w : Nat)
  | liftBorrow (rep b : Nat)
  | borrowGet (b r : Nat)
  | endBorrow (b : Nat)
  | hostDrop (rep : Nat)
  | resume

namespace State

variable (s : State)

/-- A `Thing` that is still the owner of a handle. -/
def Owns (w : Nat) : Prop := ∃ x, s.things w = some x ∧ x.handle ≠ taken

/-- No reference got from `source` is live. -/
def Unreferenced (source : Source) : Prop := ∀ r y, s.refs r = some y → y.source ≠ source

/-- The own handle is lent to no call. -/
def Unlent (rep : Nat) : Prop := ∀ b x, s.borrows b = some x → x.rep ≠ rep

/-- A free index of the table. -/
def FreeHandle (handle : Nat) : Prop := s.table handle = none ∧ 0 < handle ∧ handle < maxHandles

/-- What the borrow checker lets the user's code do, generated code does with
what it owns, and the component model does between calls. -/
def Allowed : Event → Prop
  | .new w rep handle => s.things w = none ∧ s.cells rep = none ∧ s.FreeHandle handle
  | .get w r => s.Owns w ∧ s.refs r = none
  | .getMut w r => s.Owns w ∧ s.Unreferenced (.thing w) ∧ s.refs r = none
  | .deref r | .endRef r => ∃ y, s.refs r = some y
  | .intoInner w | .takeHandle w => s.Owns w ∧ s.Unreferenced (.thing w)
  | .dropThing w => (∃ x, s.things w = some x) ∧ s.Unreferenced (.thing w)
  | .handOver handle => s.lowered handle = true
  | .takeBack handle w => s.lowered handle = true ∧ s.things w = none
  | .liftOwn rep handle w =>
    (∃ i, s.abroad rep = some i) ∧ s.Unlent rep ∧ s.FreeHandle handle ∧ s.things w = none
  | .liftBorrow rep b => (∃ i, s.abroad rep = some i) ∧ s.borrows b = none
  | .borrowGet b r => (∃ x, s.borrows b = some x) ∧ s.refs r = none
  | .endBorrow b => (∃ x, s.borrows b = some x) ∧ s.Unreferenced (.borrow b)
  | .hostDrop rep => (∃ i, s.abroad rep = some i) ∧ s.Unlent rep
  | .resume => s.stack ≠ []

end State

/-- A component that exports a resource. Nothing but the next step happens while
a handle is being dropped; the user's `Drop` may be interrupted by anything. -/
def resources : System State Event Fault where
  init s := s = State.initial
  allowed s e :=
    match s.running with
    | .user => s.Allowed e
    | _ => e = .resume
  exec s
    | .new w rep handle => .ok (s.new w rep handle)
    | .get w r | .getMut w r => s.get w r
    | .deref r => s.deref r >>= fun _ => .ok s
    | .endRef r => .ok { s with refs := put s.refs r none }
    | .intoInner w => s.intoInner w
    | .dropThing w => s.dropThing w
    | .takeHandle w => s.takeHandle w
    | .handOver handle => s.handOver handle
    | .takeBack handle w => s.takeBack handle w
    | .liftOwn rep handle w => s.liftOwn rep handle w
    | .liftBorrow rep b => s.liftBorrow rep b
    | .borrowGet b r => s.borrowGet b r
    | .endBorrow b => .ok { s with borrows := put s.borrows b none }
    -- the host's own handle is gone before the destructor runs
    | .hostDrop rep => .ok { s with abroad := put s.abroad rep none, running := .dtor rep }
    | .resume => s.resume

end WitBindgen.Rust
