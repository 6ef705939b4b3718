import WitBindgen.CSharp.RepTable
import WitBindgen.Library.Runs

/-!
# Instances of an exported resource

The code emitted for `HandleLower` and `HandleLift` of an exported resource, its
`Dispose`, and its destructor, with the part of the host that they talk to: the
component's table of own handles, and the handles of the same resource elsewhere.
Instances are numbered; an instance that was never lowered has `Handle` 0, like
one that the host owns.
-/

namespace WitBindgen.CSharp

/-- An own handle in the component's table. -/
structure Entry where
  /-- The handles that were ever in the table, in order. -/
  serial : Nat
  rep : Nat
  /-- The instance that `[resource-new]` made the representation for. -/
  inst : Nat
  /-- Lowered, and the call that takes it out of the table is still to come. -/
  lowered : Bool
  deriving DecidableEq

/-- An own handle elsewhere. -/
structure Abroad where
  rep : Nat
  inst : Nat
  deriving DecidableEq

structure State where
  repTable : RepTable Nat
  /-- The field `Handle` of each instance. -/
  handle : Nat → Nat
  table : Nat → Option Entry
  abroad : Nat → Option Abroad
  /-- How many handles there have been in the table. -/
  entries : Nat
  /-- What `[resource-drop]` was called on, by serial number. -/
  dropped : List Nat
  /-- The instances that `repTable.Add` was called on. -/
  registered : List Nat
  /-- The instances that the destructor disposed of. -/
  finalised : List Nat

namespace State

def initial : State where
  repTable := .new
  handle _ := 0
  table _ := none
  abroad _ := none
  entries := 0
  dropped := []
  registered := []
  finalised := []

def setHandle (s : State) (i h : Nat) : State :=
  { s with handle := Function.update s.handle i h }

/-- The host puts a handle in the table, at an index of its choice. -/
def enter (s : State) (h rep i : Nat) : State :=
  { s with
    table := Function.update s.table h (some ⟨s.entries, rep, i, false⟩)
    entries := s.entries + 1 }

/-- `repTable.Add` and `wasmImportResourceNew`, which answers with `h`. -/
def register (s : State) (i h : Nat) : Except Fault State := do
  let (localRep, t) ← s.repTable.add i
  .ok ({ s with repTable := t, registered := s.registered ++ [i] }.enter h localRep i)

/-- The handle is an operand of the call to come. -/
def lend (s : State) (h : Nat) : Except Fault State :=
  match s.table h with
  | some e => .ok { s with table := Function.update s.table h (some { e with lowered := true }) }
  | none => .error .trap

/-- `HandleLower` of an own handle. -/
def lowerOwn (s : State) (i h : Nat) : Except Fault State := do
  if s.handle i = 0 then
    let s ← s.register i h
    (s.setHandle i 0).lend h
  else
    (s.setHandle i 0).lend (s.handle i)

/-- `HandleLower` of a borrow. -/
def lowerBorrow (s : State) (i h : Nat) : Except Fault State := do
  if s.handle i = 0 then
    let s ← s.register i h
    .ok (s.setHandle i h)
  else
    .ok s

/-- The call takes the lowered handle out of the table. -/
def handOver (s : State) (h x : Nat) : Except Fault State :=
  match s.table h with
  | some e =>
    .ok { s with
      table := Function.update s.table h none
      abroad := Function.update s.abroad x (some ⟨e.rep, e.inst⟩) }
  | none => .error .trap

/-- `HandleLift` of an own handle, which the host has put in the table at `h`. -/
def liftOwn (s : State) (x h : Nat) : Except Fault State :=
  match s.abroad x with
  | some a => do
      let s := { s with abroad := Function.update s.abroad x none }.enter h a.rep a.inst
      let resource ← s.repTable.get a.rep
      .ok (s.setHandle resource h)
  | none => .error .trap

/-- `HandleLift` of a borrow, which is a representation. -/
def liftBorrow (s : State) (rep : Nat) : Except Fault Nat := s.repTable.get rep

/-- `wasmExportResourceDtor`. `Dispose` finds `Handle` at 0 and does nothing
unless the application overrides it. -/
def dtor (s : State) (rep : Nat) : Except Fault State := do
  let (val, t) ← s.repTable.remove rep
  .ok ({ s with repTable := t, finalised := s.finalised ++ [val] }.setHandle val 0)

/-- `wasmImportResourceDrop`: the component's own resource, so the host calls the
destructor before it returns. -/
def resourceDrop (s : State) (h : Nat) : Except Fault State :=
  match s.table h with
  | some e =>
    { s with
      table := Function.update s.table h none
      dropped := s.dropped ++ [e.serial] }.dtor e.rep
  | none => .error .trap

/-- `Dispose(bool)`, from `Dispose()` or from the finaliser. -/
def dispose (s : State) (i : Nat) : Except Fault State :=
  if s.handle i ≠ 0 then
    (s.setHandle i 0).resourceDrop (s.handle i)
  else
    .ok s

/-- The host drops a handle elsewhere. -/
def hostDrop (s : State) (x : Nat) : Except Fault State :=
  match s.abroad x with
  | some a => { s with abroad := Function.update s.abroad x none }.dtor a.rep
  | none => .error .trap

end State

/-! ## Runs -/

/-- What may happen to the instances. Indices that the host chooses are part of
the event. -/
inductive Event where
  | lowerOwn (i h : Nat)
  | lowerBorrow (i h : Nat)
  | handOver (h x : Nat)
  | liftOwn (x h : Nat)
  | liftBorrow (rep : Nat)
  | dispose (i : Nat)
  | hostDrop (x : Nat)
  deriving DecidableEq

namespace State

def exec (s : State) : Event → Except Fault State
  | .lowerOwn i h => s.lowerOwn i h
  | .lowerBorrow i h => s.lowerBorrow i h
  | .handOver h x => s.handOver h x
  | .liftOwn x h => s.liftOwn x h
  | .liftBorrow rep => do
      let _ ← s.liftBorrow rep
      .ok s
  | .dispose i => s.dispose i
  | .hostDrop x => s.hostDrop x

/-- An index the host may choose for a handle in the table. -/
def FreeHandle (s : State) (h : Nat) : Prop := h ≠ 0 ∧ s.table h = none

/-- A representation that some own handle stands for. -/
def Live (s : State) (rep i : Nat) : Prop :=
  (∃ h e, s.table h = some e ∧ e.rep = rep ∧ e.inst = i) ∨ ∃ x, s.abroad x = some ⟨rep, i⟩

/-- What the host and the application may do: they use the handles they have. -/
def Allowed (s : State) : Event → Prop
  | .lowerOwn _ h | .lowerBorrow _ h => s.FreeHandle h
  | .handOver h x => (∃ e, s.table h = some e ∧ e.lowered = true) ∧ s.abroad x = none
  | .liftOwn x h => (∃ a, s.abroad x = some a) ∧ s.FreeHandle h
  | .liftBorrow rep => ∃ i, s.Live rep i
  | .dispose _ => True
  | .hostDrop x => ∃ a, s.abroad x = some a

/-- A lowered instance is new, or its handle is the component's. -/
def Sound (s : State) : Event → Prop
  | .lowerOwn i _ | .lowerBorrow i _ => s.handle i ≠ 0 ∨ i ∉ s.registered
  | _ => True

end State

/-- Every order of events. -/
def exportedResource : System State Event Fault where
  init s := s = .initial
  allowed := State.Allowed
  exec := State.exec

/-- The orders in which no instance is lowered while the host owns it or after
its destructor. -/
def soundlyLowered : System State Event Fault where
  init s := s = .initial
  allowed s e := s.Allowed e ∧ s.Sound e
  exec := State.exec

/-! ## What the bookkeeping is for -/

namespace State

/-- The component owns a handle of the instance. -/
def Owns (s : State) (i : Nat) : Prop :=
  ∃ h e, s.table h = some e ∧ e.inst = i ∧ e.lowered = false

structure Kept (s : State) : Prop where
  /-- Representations lead to the instances they were made for. -/
  resolves : ∀ rep i, s.Live rep i → s.repTable.get rep = .ok i
  oneSlot : ∀ i rep rep', s.repTable.lookup rep = some i → s.repTable.lookup rep' = some i →
    rep = rep'
  handle : ∀ i, s.handle i ≠ 0 ↔ s.Owns i
  /-- No handle is dropped twice. -/
  drops : s.dropped.Nodup
  /-- Registered instances are in the table and not finalised, or finalised once. -/
  finalised : ∀ i ∈ s.registered,
    (∃ rep, s.Live rep i) ∧ s.finalised.count i = 0 ∨
    (¬ ∃ rep, s.Live rep i) ∧ s.finalised.count i = 1
  /-- No event that may come fails. -/
  runs : ∀ e, s.Allowed e → s.Sound e → ∃ s', s.exec e = .ok s'

end State

end WitBindgen.CSharp
