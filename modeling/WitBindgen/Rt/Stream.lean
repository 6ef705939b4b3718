import WitBindgen.Library.Blocks
import WitBindgen.Rt.Registration

/-!
# Reads and writes of streams

`rt/async_support/stream_support.rs`: a read from, or a write to, one end of a
stream as an operation on the waitable of that end. An end keeps a flag that the
other end is gone; the operations on it consult and set the flag. `log` lists what
is asked of the host and of the element type.

Elements are read through pointers: the host puts them where the operation in flight has
said, and when it reports them they are found there. A `Vec` and the slab of a read are
blocks of memory of their own.
-/

namespace WitBindgen

namespace Rt

open Blocks (Pointer Memory)

/-! ## Codes -/

def blocked : Code := 0xffffffff
def completed : Code := 0x0
def dropped : Code := 0x1
def cancelled : Code := 0x2

/-- The return code of a stream or future operation. -/
inductive ReturnCode where
  | blocked
  | completed (amt : Nat)
  | dropped (amt : Nat)
  | cancelled (amt : Nat)
deriving DecidableEq

/-- `none` is the panic on an unknown code. -/
def ReturnCode.decode (val : Code) : Option ReturnCode :=
  if val = Rt.blocked then some .blocked
  else
    let amt := val >>> 4
    let status := val &&& 0xf
    if status = Rt.completed then some (.completed amt)
    else if status = Rt.dropped then some (.dropped amt)
    else if status = Rt.cancelled then some (.cancelled amt)
    else none

/-- The most elements one operation transfers. -/
def maxLength : Nat := 2 ^ 28 - 1

inductive StreamResult where
  | complete (amt : Nat)
  | dropped
  | cancelled
deriving DecidableEq

/-- The number of elements a code reports. -/
def amount (code : Code) : Nat :=
  match ReturnCode.decode code with
  | some (.completed amt) | some (.dropped amt) | some (.cancelled amt) => amt
  | _ => 0

/-! ## Elements -/

/-- The `StreamOps` of one element type, and how Rust keeps its values. -/
structure StreamOps (α : Type) where
  elemSize : Nat
  elemAlign : Nat
  nativeAbiMatchesCanonicalAbi : Bool
  containsLists : Bool
  /-- `lift`, of the bytes at a pointer. -/
  lift : List UInt8 → α
  /-- `size_of::<T>()`. -/
  rustSize : Nat
  load : List UInt8 → α
  store : α → List UInt8
  load_store : ∀ a, load (store a) = a
  length_store : ∀ a, (store a).length = rustSize
  rustSize_eq : nativeAbiMatchesCanonicalAbi = true → rustSize = elemSize
  /-- The elements the host delivers to the readable end, in order and in the canonical ABI. -/
  source : Nat → List UInt8
  length_source : ∀ n, (source n).length = elemSize
  /-- Whether a product that does not fit a `usize` panics. -/
  overflowChecks : Bool

/-- The blocks of memory that a read knows of. -/
inductive Block where
  /-- Where no pointer goes that is used. -/
  | null
  /-- What `Cleanup::new` allocates. -/
  | slab
  | vec (n : Nat)
deriving DecidableEq

def nullPtr : Pointer Block := ⟨.null, 0⟩

namespace Stream

variable {α : Type}

inductive Step (α : Type) where
  /-- `len` elements are offered from position `cursor` of a buffer. -/
  | startWrite (handle : Waitable) (cursor len : Nat)
  | startRead (handle : Waitable) (ptr : Pointer Block) (len : Nat)
  | cancelWrite (handle : Waitable)
  | cancelRead (handle : Waitable)
  | lower (a : α)
  /-- `lift` of these bytes. -/
  | lift (bytes : List UInt8)
  | deallocLists (a : α)
  /-- A code of the operation in flight is looked at. -/
  | told (code : Code)

/-- `AbiBuffer`: its elements, in Rust's representation or lowered. -/
structure AbiBuffer (α : Type) where
  items : List α
  cursor : Nat

/-- A `Vec`, whose elements are in memory. -/
structure Buffer where
  block : Nat
  length : Nat
  capacity : Nat
deriving DecidableEq

/-- Either end of a stream, with the memory. -/
structure End (α : Type) where
  handle : Waitable
  done : Bool
  memory : Memory Block
  /-- Where the host puts the elements of the read in flight. -/
  target : Option (Pointer Block)
  /-- The number of elements the host has delivered. -/
  received : Nat
  log : List (Step α)

abbrev EndM (α : Type) := OpM (End α)

def emit (s : Step α) : EndM α Unit := fun e => .ok ((), { e with log := e.log ++ [s] })

def panic {β : Type} (text : String) : EndM α β := fun _ => .error text

def setDone : EndM α Unit := fun e => .ok ((), { e with done := true })

def decode (code : Code) : EndM α ReturnCode :=
  match ReturnCode.decode code with
  | some r => pure r
  | none => panic "unknown return code"

variable (O : StreamOps α)

/-! ## Writes -/

def lowerItems (items : List α) : EndM α PUnit :=
  if O.nativeAbiMatchesCanonicalAbi then pure () else items.forM fun a => emit (.lower a)

def deallocItems (items : List α) : EndM α PUnit :=
  if O.containsLists then items.forM fun a => emit (.deallocLists a) else pure ()

def AbiBuffer.new (vec : List α) : EndM α (AbiBuffer α) := do
  lowerItems O vec
  pure ⟨vec, 0⟩

def AbiBuffer.remaining (buf : AbiBuffer α) : Nat := buf.items.length - buf.cursor

def AbiBuffer.advance (buf : AbiBuffer α) (amt : Nat) : EndM α (AbiBuffer α) :=
  if buf.items.length < amt + buf.cursor then
    panic "assertion failed: amt + self.cursor <= self.rust_storage.len()"
  else do
    deallocItems O ((buf.items.drop buf.cursor).take amt)
    pure { buf with cursor := buf.cursor + amt }

def writeStart (buf : AbiBuffer α) (answer : Code) : EndM α (Code × AbiBuffer α) := do
  let writer ← get
  if writer.done then pure (dropped, buf)
  else do
    emit (.startWrite writer.handle buf.cursor (min buf.remaining maxLength))
    pure (answer, buf)

/-- `in_progress_update` of both ends, which differ in what they make of the
elements that were transferred. The end is marked done where elements came along
with the news that the other end is gone. -/
def update {I B : Type} (state : I) (buf : B) (take : Nat → EndM α B) (code : Code) :
    EndM α (Except I (StreamResult × B)) := do
  emit (.told code)
  match ← decode code with
  | .blocked => pure (.error state)
  | .dropped 0 => pure (.ok (.dropped, buf))
  | .cancelled 0 => pure (.ok (.cancelled, buf))
  | .completed amt | .cancelled amt => do
      let buf ← take amt
      pure (.ok (.complete amt, buf))
  | .dropped amt => do
      let buf ← take amt
      setDone
      pure (.ok (.complete amt, buf))

def writeUpdate (buf : AbiBuffer α) (code : Code) :
    EndM α (Except (AbiBuffer α) (StreamResult × AbiBuffer α)) :=
  update buf buf (buf.advance O) code

/-- `StreamWriteOp`. -/
def writeOp : WaitableOp where
  σ := End α
  Start := AbiBuffer α
  InProgress := AbiBuffer α
  Result := StreamResult × AbiBuffer α
  Cancel := StreamResult × AbiBuffer α
  start := writeStart
  inProgressUpdate := writeUpdate O
  startCancelled buf := pure (.cancelled, buf)
  inProgressWaitable _ := do return (← get).handle
  inProgressCancel buf answer := do
    emit (.cancelWrite (← get).handle)
    pure (answer, buf)
  resultIntoCancel := pure

/-! ## Reads -/

/-- A handle that was given away. -/
def takenHandle : Waitable := 0xffffffff

/-- `RawStreamReader::handle`. -/
def readHandle : EndM α Waitable := do
  let reader ← get
  if reader.handle = takenHandle then panic "called `Option::unwrap()` on a `None` value"
  else pure reader.handle

/-- The place of an element of a `Vec`. -/
def Buffer.at (buf : Buffer) (i : Nat) : Pointer Block := ⟨.vec buf.block, i * O.rustSize⟩

/-- `buf.spare_capacity_mut().len()`. -/
def Buffer.spare (buf : Buffer) : Nat := buf.capacity - buf.length

/-- `elem_layout.size() * cap.len()`. -/
def usizeMul (a b : Nat) : EndM α Nat :=
  if a * b < 2 ^ 32 then pure (a * b)
  else if O.overflowChecks then panic "attempt to multiply with overflow"
  else pure (a * b % 2 ^ 32)

/-- `Layout::from_size_align` and `Cleanup::new`, with what is freed later. -/
def slab (size : Nat) : EndM α (Pointer Block × Option (Pointer Block)) :=
  if 2 ^ 31 - O.elemAlign < size then
    panic "called `Result::unwrap()` on an `Err` value: LayoutError"
  else if size = 0 then pure (nullPtr, none)
  else pure (⟨.slab, 0⟩, some ⟨.slab, 0⟩)

/-- The buffer, and the slab for canonical elements that comes with it. -/
abbrev ReadState := Buffer × Option (Pointer Block)

/-- Where the host is to put elements: in the spare capacity of the buffer, or in a slab. -/
def readPointer (buf : Buffer) : EndM α (Pointer Block × Option (Pointer Block)) :=
  if O.nativeAbiMatchesCanonicalAbi then pure (buf.at O buf.length, none)
  else do slab O (← usizeMul O O.elemSize buf.spare)

/-- What the host has done by the time it answers a read into `ptr`, or reports it, with a code. -/
def End.transfer (e : End α) (ptr : Pointer Block) (code : Code) : End α :=
  if code = blocked then { e with target := some ptr }
  else { e with
    memory := e.memory.writeEach ptr O.elemSize (fun i => O.source (e.received + i)) (amount code)
    target := none
    received := e.received + amount code }

/-- The host answers or reports the read in flight. -/
def End.report (e : End α) (code : Code) : End α :=
  match e.target with
  | some ptr => e.transfer O ptr code
  | none => e

def readStart (buf : Buffer) (answer : Code) : EndM α (Code × ReadState) := do
  let reader ← get
  if reader.done then pure (dropped, (buf, none))
  else do
    let (ptr, cleanup) ← readPointer O buf
    emit (.startRead (← readHandle) ptr (min buf.spare maxLength))
    modify fun e => e.transfer O ptr answer
    pure (answer, (buf, cleanup))

/-- `buf.push`. -/
def Buffer.push (buf : Buffer) (a : α) : EndM α Buffer := do
  modify fun e => { e with memory := e.memory.write (buf.at O buf.length) (O.store a) }
  pure { buf with length := buf.length + 1 }

/-- The loop over what is in the slab. -/
def liftInto (buf : Buffer) (ptr : Pointer Block) : Nat → EndM α Buffer
  | 0 => pure buf
  | amt + 1 => do
      let bytes := (← get).memory.read ptr O.elemSize
      emit (.lift bytes)
      let buf ← buf.push O (O.lift bytes)
      liftInto buf (ptr.add O.elemSize) amt

def readInto (state : ReadState) (amt : Nat) : EndM α Buffer :=
  let (buf, cleanup) := state
  if buf.spare < amt then panic "assertion failed: amt <= buf.capacity() - cur_len"
  -- `set_len`: the elements are there
  else if O.nativeAbiMatchesCanonicalAbi then pure { buf with length := buf.length + amt }
  else liftInto O buf (cleanup.getD nullPtr) amt

def readUpdate (state : ReadState) (code : Code) : EndM α (Except ReadState (StreamResult × Buffer)) :=
  update state state.1 (readInto O state) code

/-- `StreamReadOp`. -/
def readOp : WaitableOp where
  σ := End α
  Start := Buffer
  InProgress := ReadState
  Result := StreamResult × Buffer
  Cancel := StreamResult × Buffer
  start := readStart O
  inProgressUpdate := readUpdate O
  startCancelled buf := pure (.cancelled, buf)
  inProgressWaitable _ := readHandle
  inProgressCancel state answer := do
    emit (.cancelRead (← readHandle))
    modify fun e => e.report O answer
    pure (answer, state)
  resultIntoCancel := pure

/-! ## Computations on an end -/

variable {O}

/-- Steps that neither start an operation nor look at a code. -/
def Step.quiet : Step α → Bool
  | .startWrite .. | .startRead .. | .told _ => false
  | _ => true

/-- What a computation does to an end besides logging quiet steps. -/
def Quiet {β : Type} (m : EndM α β) : Prop :=
  ∀ e, Ends (fun _ => True) (fun r : β × End α => r.2.handle = e.handle ∧ r.2.done = e.done ∧
    ∃ steps, r.2.log = e.log ++ steps ∧ ∀ s ∈ steps, s.quiet = true) (m e)

theorem Quiet.pure {β : Type} (b : β) : Quiet (Pure.pure b : EndM α β) :=
  fun _ => ⟨rfl, rfl, [], (List.append_nil _).symm, nofun⟩

theorem Quiet.panic {β : Type} (text : String) : Quiet (Stream.panic text : EndM α β) :=
  fun _ => trivial

theorem Quiet.emit {s : Step α} (h : s.quiet = true) : Quiet (Stream.emit s) :=
  fun _ => ⟨rfl, rfl, [s], rfl, by simpa using h⟩

theorem Quiet.bind {β γ : Type} {m : EndM α β} {f : β → EndM α γ} (hm : Quiet m)
    (hf : ∀ b, Quiet (f b)) : Quiet (m >>= f) := by
  intro e
  refine (hm e).bind fun r hr => ?_
  obtain ⟨hhandle, hdone, steps, hlog, hquiet⟩ := hr
  refine (hf r.1 r.2).mono fun r' hr' => ?_
  obtain ⟨hhandle', hdone', steps', hlog', hquiet'⟩ := hr'
  refine ⟨hhandle'.trans hhandle, hdone'.trans hdone, steps ++ steps', ?_, fun s hs => ?_⟩
  · rw [hlog', hlog, List.append_assoc]
  · exact (List.mem_append.mp hs).elim (hquiet s) (hquiet' s)

theorem Quiet.forM {β : Type} {f : β → EndM α PUnit} (hf : ∀ b, Quiet (f b)) :
    ∀ l : List β, Quiet (l.forM f)
  | [] => Quiet.pure _
  | _ :: l => (hf _).bind fun _ => Quiet.forM hf l

theorem Quiet.get_bind {β : Type} {f : End α → EndM α β} (h : ∀ e, Quiet (f e)) :
    Quiet (get >>= f) := fun e => h e e

theorem Quiet.advance (buf : AbiBuffer α) (amt : Nat) : Quiet (buf.advance O amt) := by
  rw [AbiBuffer.advance]
  split
  · exact Quiet.panic _
  · refine Quiet.bind ?_ fun _ => Quiet.pure _
    rw [deallocItems]
    split
    · exact Quiet.forM (fun _ => Quiet.emit rfl) _
    · exact Quiet.pure _

theorem Quiet.modified {f : End α → End α} (hhandle : ∀ e, (f e).handle = e.handle) (hdone : ∀ e, (f e).done = e.done)
    (hlog : ∀ e, (f e).log = e.log) : Quiet (modify f : EndM α PUnit) :=
  fun e => ⟨hhandle e, hdone e, [], (hlog e).trans (List.append_nil _).symm, nofun⟩

theorem Quiet.readPointer (buf : Buffer) : Quiet (readPointer O buf) := by
  rw [Stream.readPointer]
  split
  · exact Quiet.pure _
  · refine Quiet.bind ?_ fun size => ?_
    · rw [usizeMul]
      split
      · exact Quiet.pure _
      · split
        · exact Quiet.panic _
        · exact Quiet.pure _
    · rw [slab]
      split
      · exact Quiet.panic _
      · split <;> exact Quiet.pure _

theorem End.transfer_frame (e : End α) (ptr : Pointer Block) (code : Code) :
    (e.transfer O ptr code).handle = e.handle ∧ (e.transfer O ptr code).done = e.done ∧
      (e.transfer O ptr code).log = e.log := by
  rw [End.transfer]
  split <;> exact ⟨rfl, rfl, rfl⟩

theorem End.report_frame (e : End α) (code : Code) : (e.report O code).handle = e.handle ∧
    (e.report O code).done = e.done ∧ (e.report O code).log = e.log := by
  rw [End.report]
  split
  · exact e.transfer_frame _ code
  · exact ⟨rfl, rfl, rfl⟩

theorem Quiet.push (buf : Buffer) (a : α) : Quiet (buf.push O a) := by
  refine Quiet.bind ?_ fun _ => Quiet.pure _
  exact Quiet.modified (fun _ => rfl) (fun _ => rfl) fun _ => rfl

theorem Quiet.liftInto (buf : Buffer) (ptr : Pointer Block) (amt : Nat) : Quiet (liftInto O buf ptr amt) := by
  induction amt generalizing buf ptr with
  | zero => exact Quiet.pure _
  | succ amt ih =>
    exact Quiet.get_bind fun e => (Quiet.emit rfl).bind fun _ => (Quiet.push _ _).bind fun buf => ih buf _

theorem Quiet.readInto (state : ReadState) (amt : Nat) : Quiet (readInto O state amt) := by
  rw [Stream.readInto]
  split
  · exact Quiet.panic _
  · split
    · exact Quiet.pure _
    · exact Quiet.liftInto _ _ _

/-! ## Contracts -/

variable {e e' : End α} {code : Code}

def pending (code : Code) : Bool := code = blocked

theorem Quiet.of_ok {β : Type} {m : EndM α β} {b : β} (hm : Quiet m) (h : m e = .ok (b, e')) :
    e'.handle = e.handle ∧ e'.done = e.done ∧
      ∃ steps, e'.log = e.log ++ steps ∧ ∀ s ∈ steps, s.quiet = true :=
  (hm e).of_ok h

theorem decode_some {r : ReturnCode} (h : ReturnCode.decode code = some r) :
    (decode code : EndM α ReturnCode) = pure r := by
  rw [decode, h]

/-- What a code makes of an end: it is looked at, and whatever is transferred with
it logs quiet steps. -/
theorem update_ends {I B : Type} {state : I} {buf : B} {take : Nat → EndM α B}
    (htake : ∀ amt, Quiet (take amt)) (code : Code) (e : End α) :
    Ends (fun _ => True) (fun r : Except I (StreamResult × B) × End α =>
      r.2.handle = e.handle ∧ (∃ steps, r.2.log = e.log ++ Step.told code :: steps ∧
        ∀ s ∈ steps, s.quiet = true) ∧
      match ReturnCode.decode code with
      | some .blocked => r.1 = .error state ∧ r.2.done = e.done
      | some (.dropped 0) => r.1 = .ok (.dropped, buf) ∧ r.2.done = e.done
      | some (.dropped (_ + 1)) => r.1.isOk ∧ r.2.done = true
      | _ => r.1.isOk ∧ r.2.done = e.done)
      (update state buf take code e) := by
  have htold : ∀ r : Except I (StreamResult × B), Ends (fun _ => True)
      (fun r' : Except I (StreamResult × B) × End α => r'.1 = r ∧ r'.2.handle = e.handle ∧
        (∃ steps, r'.2.log = e.log ++ Step.told code :: steps ∧ ∀ s ∈ steps, s.quiet = true) ∧
        r'.2.done = e.done) ((pure r : EndM α _) { e with log := e.log ++ [Step.told code] }) :=
    fun r => ⟨rfl, rfl, ⟨[], rfl, nofun⟩, rfl⟩
  have htaken : ∀ amt, Ends (fun _ => True) (fun r : B × End α => r.2.handle = e.handle ∧
      (∃ steps, r.2.log = e.log ++ Step.told code :: steps ∧ ∀ s ∈ steps, s.quiet = true) ∧
      r.2.done = e.done) (take amt { e with log := e.log ++ [Step.told code] }) := by
    intro amt
    refine (htake amt _).mono fun r hr => ?_
    obtain ⟨hhandle, hdone, steps, hlog, hquiet⟩ := hr
    exact ⟨hhandle, ⟨steps, by rw [hlog, List.append_assoc]; rfl, hquiet⟩, hdone⟩
  cases hcode : ReturnCode.decode code with
  | none =>
    rw [update, decode, hcode]
    exact trivial
  | some r =>
    rw [update, decode_some hcode]
    cases r with
    | blocked => exact ⟨rfl, ⟨[], rfl, nofun⟩, rfl, rfl⟩
    | completed amt =>
      refine (htaken amt).bind fun r hr => ?_
      exact ⟨hr.1, hr.2.1, rfl, hr.2.2⟩
    | cancelled amt =>
      cases amt with
      | zero => exact ⟨rfl, ⟨[], rfl, nofun⟩, rfl, rfl⟩
      | succ amt =>
        refine (htaken (amt + 1)).bind fun r hr => ?_
        exact ⟨hr.1, hr.2.1, rfl, hr.2.2⟩
    | dropped amt =>
      cases amt with
      | zero => exact ⟨rfl, ⟨[], rfl, nofun⟩, rfl, rfl⟩
      | succ amt =>
        refine (htaken (amt + 1)).bind fun r hr => ?_
        exact ⟨hr.1, hr.2.1, rfl, rfl⟩

theorem readHandle_run (e : End α) : (readHandle : EndM α Waitable) e =
    if e.handle = takenHandle then .error "called `Option::unwrap()` on a `None` value"
    else .ok (e.handle, e) := by
  have hget : (readHandle : EndM α Waitable) e =
      (if e.handle = takenHandle then Stream.panic "called `Option::unwrap()` on a `None` value"
        else pure e.handle : EndM α Waitable) e := rfl
  rw [hget]
  split <;> rfl

theorem readHandle_ok {h : Waitable} (hrun : (readHandle : EndM α Waitable) e = .ok (h, e')) :
    e' = e := by
  rw [readHandle_run] at hrun
  split at hrun
  · cases hrun
  · cases hrun; rfl

theorem update_error {I B : Type} {state state' : I} {buf : B} {take : Nat → EndM α B}
    (htake : ∀ amt, Quiet (take amt)) (h : update state buf take code e = .ok (.error state', e')) :
    state' = state ∧ pending code = true ∧ e'.handle = e.handle := by
  obtain ⟨hhandle, -, hr⟩ := (update_ends htake code e).of_ok h
  refine ⟨?_, ?_, hhandle⟩
  · split at hr
    · exact Except.error.inj hr.1
    · cases hr.1
    · cases hr.1
    · cases hr.1
  · split at hr
    · rename_i hdecode
      rw [ReturnCode.decode] at hdecode
      split at hdecode
      · rename_i hblocked
        simp [pending, hblocked]
      · dsimp only at hdecode
        split at hdecode
        · cases hdecode
        · split at hdecode
          · cases hdecode
          · split at hdecode <;> cases hdecode
    · cases hr.1
    · cases hr.1
    · cases hr.1

variable (O)

def writeContract : (writeOp O).Contract where
  pending := pending
  waitable_state _ e h e' hrun := by cases hrun; rfl
  update_waitable ip code e ip' e' hrun := by
    have hhandle := (update_error (fun amt => Quiet.advance ip amt) hrun).2.2
    exact congrArg some hhandle
  update_pending ip code e ip' e' hrun :=
    (update_error (fun amt => Quiet.advance ip amt) hrun).2.1
  cancel_code ip a e c ip' e' hrun := by cases hrun; rfl
  cancel_waitable ip a e c ip' e' hrun := by cases hrun; rfl

theorem readOp_waitable (e : End α) (ip : ReadState) :
    (readOp O).waitable e ip = if e.handle = takenHandle then none else some e.handle := by
  have hrun : (readOp O).inProgressWaitable ip e = _ := readHandle_run e
  by_cases htaken : e.handle = takenHandle
  · rw [if_pos htaken] at hrun ⊢
    simp only [WaitableOp.waitable, hrun]
  · rw [if_neg htaken] at hrun ⊢
    simp only [WaitableOp.waitable, hrun]

theorem readCancel_ok {ip ip' : ReadState} {a : Code}
    (hrun : (readOp O).inProgressCancel ip a e = .ok ((code, ip'), e')) :
    code = a ∧ ip' = ip ∧ e'.handle = e.handle := by
  have hbind : (readOp O).inProgressCancel ip a e = ((readHandle : EndM α Waitable) e >>= fun r =>
      Except.ok ((a, ip), End.report O { r.2 with log := r.2.log ++ [.cancelRead r.1] } a)) := rfl
  rw [hbind, readHandle_run] at hrun
  split at hrun
  · cases hrun
  · cases hrun
    exact ⟨rfl, rfl, (End.report_frame { e with log := e.log ++ [.cancelRead e.handle] } _).1⟩

def readContract : (readOp O).Contract where
  pending := pending
  waitable_state _ e h e' hrun := readHandle_ok hrun
  update_waitable ip code e ip' e' hrun := by
    have hhandle := (update_error (fun amt => Quiet.readInto ip amt) hrun).2.2
    refine ((readOp_waitable O e' ip').trans ?_).trans (readOp_waitable O e ip).symm
    rw [hhandle]
  update_pending ip code e ip' e' hrun :=
    (update_error (fun amt => Quiet.readInto ip amt) hrun).2.1
  cancel_code ip a e c ip' e' hrun := (readCancel_ok O hrun).1
  cancel_waitable ip a e c ip' e' hrun := by
    refine ((readOp_waitable O e' ip').trans ?_).trans (readOp_waitable O e ip).symm
    rw [(readCancel_ok O hrun).2.2]

end Stream

end Rt

end WitBindgen
