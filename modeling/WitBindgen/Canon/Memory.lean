import WitBindgen.Canon.Word
import WitBindgen.Abi.Deallocate

/-!
# Values in memory

What it means for a value of a WIT type to be stored at an address, loaded from
it and given back: three recursions over the type, each over the layout of the
parser and the heap. They are written from the canonical ABI, not from the
generator, whose code is compared with them.
-/

namespace WitBindgen

open Heap

/-! ## Layout -/

namespace Target

variable (T : Target)

def size (t : Ty) : Nat := (T.W.size t).eval T.p

def align (t : Ty) : Nat := (T.W.align t).eval T.p

/-- Layout of one entry of a map: the record of its key and its value. -/
def entrySize (k v : Ty) : Nat := (T.W.record [k, v]).size.eval T.p

def entryAlign (k v : Ty) : Nat := (T.W.record [k, v]).align.eval T.p

def valueOffset (k v : Ty) : Nat :=
  ((T.W.fieldOffsets [k, v])[1]?.map fun f => f.1.eval T.p).getD 0

/-- The addresses of the fields of a record at `a`. -/
def fieldAddrs (types : List Ty) (a : Nat) : List Nat :=
  (T.W.fieldOffsets types).map fun f => a + f.1.eval T.p

def tagBytes (ty : Ty) : Nat := (T.W.armTag ty).bytes

def payloadOffset (ty : Ty) (arms : List (Option Ty)) : Nat :=
  (T.W.payloadOffset (T.W.armTag ty) arms).eval T.p

end Target

/-- `n` consecutive slots of `size` bytes from `a`. -/
def slots (a size n : Nat) : List Nat := (List.range n).map fun i => a + i * size

@[simp] theorem length_slots (a size n : Nat) : (slots a size n).length = n := by
  simp [slots]

/-! ## The shape of a value -/

namespace Val

def asString : Val → Option String
  | .string s => some s
  | _ => none

def asList : Val → Option (List Val)
  | .list vs => some vs
  | _ => none

def asFixed (n : Nat) : Val → Option (List Val)
  | .list vs => if vs.length = n then some vs else none
  | _ => none

def asMap : Val → Option (List (Val × Val))
  | .map es => some es
  | _ => none

def asRecord (n : Nat) : Val → Option (List Val)
  | .record vs => if vs.length = n then some vs else none
  | _ => none

def asFlags (n : Nat) : Val → Option (List Bool)
  | .flags bs => if bs.length = n then some bs else none
  | _ => none

def asEnum (n : Nat) : Val → Option Nat
  | .enum i => if i < n then some i else none
  | _ => none

def asHandle : Val → Option (BitVec 32)
  | .handle h => some h
  | _ => none

/-- The case and the payload of a variant whose cases are `arms`: there is a
payload exactly when the case has one. -/
def asVariant {α : Type} (arms : List (Option α)) : Val → Option (Nat × Option (α × Val))
  | .variant i payload =>
    match arms[i]?, payload with
    | some none, none => some (i, none)
    | some (some a), some v => some (i, some (a, v))
    | _, _ => none
  | _ => none

end Val

def stringBytes (s : String) : List UInt8 := s.toByteArray.data.toList

def bytesString (bs : List UInt8) : Option String := String.fromUTF8? ⟨bs.toArray⟩

theorem bytesString_stringBytes (s : String) : bytesString (stringBytes s) = some s := by
  have h : (⟨(stringBytes s).toArray⟩ : ByteArray) = s.toByteArray := rfl
  rw [bytesString, h, String.fromUTF8?, dif_pos s.isValidUTF8]
  rfl

/-! ## Storing -/

section
variable (T : Target)

/-- A string's buffer and its length in bytes. -/
def lowerString (s : String) : Exec Event (Nat × Nat) :=
  if (stringBytes s).length < 256 ^ T.p then do
    let ptr ← allocate T.A (stringBytes s).length 1
    storeBytes ptr (stringBytes s)
    pure (ptr, (stringBytes s).length)
  else oom

/-- A buffer with one slot for each of `stores`, which fill them in order. -/
def lowerBuffer (size align : Nat) (stores : List (Nat → Exec Event Unit)) :
    Exec Event (Nat × Nat) :=
  if stores.length < 256 ^ T.p then do
    let ptr ← allocate T.A (stores.length * size) align
    ((slots ptr size stores.length).zip stores).forM fun x => x.2 x.1
    pure (ptr, stores.length)
  else oom

/-- A pointer and the length behind it, the length first. -/
def storePair (a : Nat) (x : Nat × Nat) : Exec Event Unit := do
  storeNat (a + T.p) T.p x.2
  storeNat a T.p x.1

def storeEntry (valueOffset : Nat) (key value : Nat → Exec Event Unit) (a : Nat) :
    Exec Event Unit := do
  key a
  value (a + valueOffset)

def storeHandle (v : Val) (a : Nat) : Exec Event Unit := do
  let h ← require v.asHandle
  storeNat a 4 h.toNat

def storeFields (members : List (Ty × (Val → Nat → Exec Event Unit))) (v : Val) (a : Nat) :
    Exec Event Unit := do
  let vs ← require (v.asRecord members.length)
  (((T.fieldAddrs (members.map (·.1)) a).zip members).zip vs).forM fun x =>
    x.1.2.2 x.2 x.1.1

/-- Words of `k` bytes, the last one first. -/
def storeWords (k : Nat) : List Nat → Nat → Exec Event Unit
  | [], _ => pure ()
  | w :: ws, a => do
      storeWords k ws (a + k)
      storeNat a k w

def storeArm (tagBytes payloadOffset : Nat) (arms : List (Option (Val → Nat → Exec Event Unit)))
    (v : Val) (a : Nat) : Exec Event Unit := do
  let (i, payload) ← require (v.asVariant arms)
  storeNat a tagBytes (disc i).bits
  match payload with
  | none => pure ()
  | some (store, x) => store x (a + payloadOffset)

def store : Ty → Val → Nat → Exec Event Unit
  | .prim q, v, a => do
      let n ← require (q.encode v)
      storeNat a q.bytes n
  | .string, v, a => do
      let s ← require v.asString
      let x ← lowerString T s
      storePair T a x
  | .errorContext, v, a => storeHandle v a
  | .type _ t, v, a => store t v a
  | .list _ t, v, a => do
      let vs ← require v.asList
      let x ← lowerBuffer T (T.size t) (T.align t) (vs.map fun v => store t v)
      storePair T a x
  | .map _ k t, v, a => do
      let es ← require v.asMap
      let x ← lowerBuffer T (T.entrySize k t) (T.entryAlign k t) (es.map fun e =>
        storeEntry (T.valueOffset k t) (store k e.1) (store t e.2))
      storePair T a x
  | .fixedLengthList _ t n, v, a => do
      let vs ← require (v.asFixed n)
      ((slots a (T.size t) n).zip vs).forM fun x => store t x.2 x.1
  | .record _ _ fields, v, a => storeFields T (fields.map fun f => (f.2, store f.2)) v a
  | .tuple _ types, v, a => storeFields T (types.map fun t => (t, store t)) v a
  | .flags _ _ names, v, a => do
      let bs ← require (v.asFlags names.length)
      storeWords (T.W.flagsRepr names.length).wordBytes
        (flagWords (T.W.flagsRepr names.length).count bs) a
  | .variant id name cases, v, a =>
    storeArm (T.tagBytes (.variant id name cases))
      (T.payloadOffset (.variant id name cases) (cases.map (·.2)))
      (cases.map fun c => match _h : c.2 with
        | none => none
        | some t => some (store t)) v a
  | .option id t, v, a =>
    storeArm (T.tagBytes (.option id t)) (T.payloadOffset (.option id t) [none, some t])
      [none, some (store t)] v a
  | .result id ok err, v, a =>
    storeArm (T.tagBytes (.result id ok err)) (T.payloadOffset (.result id ok err) [ok, err])
      [match ok with | none => none | some t => some (store t),
       match err with | none => none | some t => some (store t)] v a
  | .enum _ _ cases, v, a => do
      let i ← require (v.asEnum cases.length)
      storeNat a (T.W.tag cases.length).bytes (disc i).bits
  | .handle _ _ _, v, a => storeHandle v a
  | .future _ _, v, a => storeHandle v a
  | .stream _ _, v, a => storeHandle v a
  | .resource _, _, _ => stuck
  | .unknown _, _, _ => stuck
termination_by t => sizeOf t
decreasing_by
  all_goals first
    | decreasing_tactic
    | with_reducible exact Ty.sizeOf_field ‹_›
    | with_reducible exact Ty.sizeOf_tuple ‹_›
    | with_reducible exact Ty.sizeOf_arm ‹_› ‹_›

variable {T} in
theorem store_fields {ty : Ty} {types : List Ty} (h : ty.fieldTypes = some types) (v : Val)
    (a : Nat) :
    store T ty v a = storeFields T (types.map fun t => (t, store T t)) v a := by
  cases h using Ty.fields_cases with
  | record id name fields =>
    rw [store, List.map_map]
    rfl
  | tuple id types' =>
    rw [store]

variable {T} in
theorem store_arms {ty : Ty} {arms : List (Option Ty)} (h : ty.arms = some arms) (v : Val)
    (a : Nat) :
    store T ty v a = storeArm (T.tagBytes ty) (T.payloadOffset ty arms)
      (arms.map fun o => o.map (store T)) v a := by
  cases h using Ty.arms_cases with
  | variant id name cases =>
    rw [store]
    congr 1
    exact Ty.map_cases ..
  | option id t =>
    rw [store]
    rfl
  | result id ok err =>
    cases ok <;> cases err <;> · rw [store]; rfl

/-! ## Loading -/

def loadPair (a : Nat) : Exec Event (Nat × Nat) := do
  let ptr ← loadNat a T.p
  let len ← loadNat (a + T.p) T.p
  pure (ptr, len)

def liftString (x : Nat × Nat) : Exec Event Val := do
  let bs ← loadBytes x.1 x.2
  let s ← require (bytesString bs)
  pure (.string s)

def loadBuffer {α : Type} (size : Nat) (load : Nat → Exec Event α) (x : Nat × Nat) :
    Exec Event (List α) :=
  (slots x.1 size x.2).mapM load

def loadEntry (valueOffset : Nat) (key value : Nat → Exec Event Val) (a : Nat) :
    Exec Event (Val × Val) := do
  let k ← key a
  let v ← value (a + valueOffset)
  pure (k, v)

def loadHandle (a : Nat) : Exec Event Val := do
  let n ← loadNat a 4
  pure (.handle (BitVec.ofNat 32 n))

def loadFields (members : List (Ty × (Nat → Exec Event Val))) (a : Nat) : Exec Event Val := do
  let vs ← ((T.fieldAddrs (members.map (·.1)) a).zip members).mapM fun x => x.2.2 x.1
  pure (.record vs)

def loadWords (k : Nat) : Nat → Nat → Exec Event (List Nat)
  | 0, _ => pure []
  | n + 1, a => do
      let w ← loadNat a k
      let ws ← loadWords k n (a + k)
      pure (w :: ws)

def loadArm (tagBytes payloadOffset : Nat) (arms : List (Option (Nat → Exec Event Val)))
    (a : Nat) : Exec Event Val := do
  let d ← loadNat a tagBytes
  let arm ← require arms[d]?
  match arm with
  | none => pure (.variant d none)
  | some load => do
      let x ← load (a + payloadOffset)
      pure (.variant d (some x))

/-- The enum case numbered `d`, of `n`. -/
def enumVal (n d : Nat) : Option Val := if d < n then some (.enum d) else none

def load : Ty → Nat → Exec Event Val
  | .prim q, a => do
      let n ← loadNat a q.bytes
      require (q.decode (q.extend n))
  | .string, a => do
      let x ← loadPair T a
      liftString x
  | .errorContext, a => loadHandle a
  | .type _ t, a => load t a
  | .list _ t, a => do
      let x ← loadPair T a
      let vs ← loadBuffer (T.size t) (fun a => load t a) x
      pure (.list vs)
  | .map _ k t, a => do
      let x ← loadPair T a
      let es ← loadBuffer (T.entrySize k t)
        (loadEntry (T.valueOffset k t) (fun a => load k a) (fun a => load t a)) x
      pure (.map es)
  | .fixedLengthList _ t n, a => do
      let vs ← (slots a (T.size t) n).mapM fun a => load t a
      pure (.list vs)
  | .record _ _ fields, a => loadFields T (fields.map fun f => (f.2, load f.2)) a
  | .tuple _ types, a => loadFields T (types.map fun t => (t, load t)) a
  | .flags _ _ names, a => do
      let ws ← loadWords (T.W.flagsRepr names.length).wordBytes
        (T.W.flagsRepr names.length).count a
      pure (.flags (flagBits names.length ws))
  | .variant id name cases, a =>
    loadArm (T.tagBytes (.variant id name cases))
      (T.payloadOffset (.variant id name cases) (cases.map (·.2)))
      (cases.map fun c => match _h : c.2 with
        | none => none
        | some t => some (load t)) a
  | .option id t, a =>
    loadArm (T.tagBytes (.option id t)) (T.payloadOffset (.option id t) [none, some t])
      [none, some (load t)] a
  | .result id ok err, a =>
    loadArm (T.tagBytes (.result id ok err)) (T.payloadOffset (.result id ok err) [ok, err])
      [match ok with | none => none | some t => some (load t),
       match err with | none => none | some t => some (load t)] a
  | .enum _ _ cases, a => do
      let d ← loadNat a (T.W.tag cases.length).bytes
      require (enumVal cases.length d)
  | .handle _ _ _, a => loadHandle a
  | .future _ _, a => loadHandle a
  | .stream _ _, a => loadHandle a
  | .resource _, _ => stuck
  | .unknown _, _ => stuck
termination_by t => sizeOf t
decreasing_by
  all_goals first
    | decreasing_tactic
    | with_reducible exact Ty.sizeOf_field ‹_›
    | with_reducible exact Ty.sizeOf_tuple ‹_›
    | with_reducible exact Ty.sizeOf_arm ‹_› ‹_›

variable {T} in
theorem load_fields {ty : Ty} {types : List Ty} (h : ty.fieldTypes = some types) (a : Nat) :
    load T ty a = loadFields T (types.map fun t => (t, load T t)) a := by
  cases h using Ty.fields_cases with
  | record id name fields =>
    rw [load, List.map_map]
    rfl
  | tuple id types' =>
    rw [load]

variable {T} in
theorem load_arms {ty : Ty} {arms : List (Option Ty)} (h : ty.arms = some arms) (a : Nat) :
    load T ty a = loadArm (T.tagBytes ty) (T.payloadOffset ty arms)
      (arms.map fun o => o.map (load T)) a := by
  cases h using Ty.arms_cases with
  | variant id name cases =>
    rw [load]
    congr 1
    exact Ty.map_cases ..
  | option id t =>
    rw [load]
    rfl
  | result id ok err =>
    cases ok <;> cases err <;> · rw [load]; rfl

/-! ## Giving back -/

end

/-- Whether a type owns something that the deallocation `what` gives back. An
error context counts, although nothing is done for it. -/
def Ty.owns (what : Deallocate) : Ty → Bool
  | .prim _ => false
  | .string | .errorContext | .list _ _ | .map _ _ _ => true
  | .type _ t => t.owns what
  | .fixedLengthList _ t _ => t.owns what
  | .record _ _ fields => (fields.map fun f => f.2.owns what).any id
  | .tuple _ types => (types.map fun t => t.owns what).any id
  | .flags _ _ _ | .enum _ _ _ => false
  | .variant _ _ cases => (cases.map fun c => match _h : c.2 with
      | none => false
      | some t => t.owns what).any id
  | .option _ t => t.owns what
  | .result _ ok err =>
    (match ok with | none => false | some t => t.owns what) ||
    (match err with | none => false | some t => t.owns what)
  | .handle _ (.own _) _ => what.handles
  | .handle _ (.borrow _) _ => false
  | .future _ _ | .stream _ _ => what.handles
  | .resource _ | .unknown _ => false
termination_by t => sizeOf t
decreasing_by
  all_goals first
    | decreasing_tactic
    | with_reducible exact Ty.sizeOf_field ‹_›
    | with_reducible exact Ty.sizeOf_tuple ‹_›
    | with_reducible exact Ty.sizeOf_arm ‹_› ‹_›

theorem Ty.owns_fields {what : Deallocate} {ty : Ty} {types : List Ty}
    (h : ty.fieldTypes = some types) : ty.owns what = types.any fun t => t.owns what := by
  cases h using Ty.fields_cases with
  | record id name fields =>
    rw [Ty.owns, List.any_map, List.any_map]
    rfl
  | tuple id types' =>
    rw [Ty.owns, List.any_map]
    rfl

theorem Ty.owns_arms {what : Deallocate} {ty : Ty} {arms : List (Option Ty)}
    (h : ty.arms = some arms) :
    ty.owns what = arms.any fun o => o.any fun t => t.owns what := by
  cases h using Ty.arms_cases with
  | variant id name cases =>
    rw [Ty.owns, List.any_map, List.any_map]
    refine congrArg (List.any cases) (funext fun c => ?_)
    obtain ⟨n, o⟩ := c
    cases o <;> rfl
  | option id t =>
    rw [Ty.owns]
    simp
  | result id ok err =>
    cases ok <;> cases err <;> · rw [Ty.owns]; simp

section
variable (T : Target) (what : Deallocate)

def ifOwns (ty : Ty) (x : Exec Event Unit) : Exec Event Unit :=
  if ty.owns what then x else pure ()

def freeBuffer (size align : Nat) (free : Nat → Exec Event Unit) (x : Nat × Nat) :
    Exec Event Unit := do
  (slots x.1 size x.2).forM free
  release ⟨x.1, x.2 * size, align⟩

def freeEntry (valueOffset : Nat) (key value : Nat → Exec Event Unit) (a : Nat) :
    Exec Event Unit := do
  key a
  value (a + valueOffset)

/-- Drop the handle that was read as `v`. -/
def dropVal (ty : Ty) (v : Val) : Exec Event Unit := do
  let h ← require v.asHandle
  note (.dropHandle ty h)

def freeFields (members : List (Ty × (Nat → Exec Event Unit))) (a : Nat) :
    Exec Event Unit :=
  ((T.fieldAddrs (members.map (·.1)) a).zip members).forM fun x => x.2.2 x.1

def freeArm (tagBytes payloadOffset : Nat) (arms : List (Option (Nat → Exec Event Unit)))
    (a : Nat) : Exec Event Unit := do
  let d ← loadNat a tagBytes
  let arm ← require arms[d]?
  match arm with
  | none => pure ()
  | some free => free (a + payloadOffset)

/-- Give back what the value at an address owns. Nothing is read of a type that
owns nothing, and a fixed-length list keeps what it owns. -/
def freeMem : Ty → Nat → Exec Event Unit
  | .string, a => do
      let x ← loadPair T a
      release ⟨x.1, x.2, 1⟩
  | .type id t, a => ifOwns what (.type id t) (freeMem t a)
  | .list _ t, a => do
      let x ← loadPair T a
      freeBuffer (T.size t) (T.align t) (fun a => freeMem t a) x
  | .map _ k t, a => do
      let x ← loadPair T a
      freeBuffer (T.entrySize k t) (T.entryAlign k t)
        (freeEntry (T.valueOffset k t) (fun a => freeMem k a) (fun a => freeMem t a)) x
  | .record id name fields, a => ifOwns what (.record id name fields)
      (freeFields T (fields.map fun f => (f.2, freeMem f.2)) a)
  | .tuple id types, a => ifOwns what (.tuple id types)
      (freeFields T (types.map fun t => (t, freeMem t)) a)
  | .variant id name cases, a => ifOwns what (.variant id name cases)
      (freeArm (T.tagBytes (.variant id name cases))
        (T.payloadOffset (.variant id name cases) (cases.map (·.2)))
        (cases.map fun c => match _h : c.2 with
          | none => none
          | some t => some (freeMem t)) a)
  | .option id t, a => ifOwns what (.option id t)
      (freeArm (T.tagBytes (.option id t)) (T.payloadOffset (.option id t) [none, some t])
        [none, some (freeMem t)] a)
  | .result id ok err, a => ifOwns what (.result id ok err)
      (freeArm (T.tagBytes (.result id ok err))
        (T.payloadOffset (.result id ok err) [ok, err])
        [match ok with | none => none | some t => some (freeMem t),
         match err with | none => none | some t => some (freeMem t)] a)
  | .handle id (.own r) name, a => ifOwns what (.handle id (.own r) name)
      (loadHandle a >>= dropVal (.handle id (.own r) name))
  | .future id t, a => ifOwns what (.future id t) (loadHandle a >>= dropVal (.future id t))
  | .stream id t, a => ifOwns what (.stream id t) (loadHandle a >>= dropVal (.stream id t))
  | _, _ => pure ()
termination_by t => sizeOf t
decreasing_by
  all_goals first
    | decreasing_tactic
    | with_reducible exact Ty.sizeOf_field ‹_›
    | with_reducible exact Ty.sizeOf_tuple ‹_›
    | with_reducible exact Ty.sizeOf_arm ‹_› ‹_›

variable {T what}

theorem freeMem_fields {ty : Ty} {types : List Ty} (h : ty.fieldTypes = some types)
    (a : Nat) : freeMem T what ty a =
      ifOwns what ty (freeFields T (types.map fun t => (t, freeMem T what t)) a) := by
  cases h using Ty.fields_cases with
  | record id name fields =>
    rw [freeMem, List.map_map]
    rfl
  | tuple id types' =>
    rw [freeMem]

theorem freeMem_arms {ty : Ty} {arms : List (Option Ty)} (h : ty.arms = some arms)
    (a : Nat) : freeMem T what ty a =
      ifOwns what ty (freeArm (T.tagBytes ty) (T.payloadOffset ty arms)
        (arms.map fun o => o.map (freeMem T what)) a) := by
  cases h using Ty.arms_cases with
  | variant id name cases =>
    rw [freeMem]
    congr 2
    exact Ty.map_cases ..
  | option id t =>
    rw [freeMem]
    rfl
  | result id ok err =>
    cases ok <;> cases err <;> · rw [freeMem]; rfl

end

end WitBindgen
