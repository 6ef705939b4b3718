import WitBindgen.Canon.Memory

/-!
# Values as core values

The flat form of a value: a list of core values, one for each core type its
type flattens to. What a variant's active case is lowered to is cast to the
slots all cases share, and padded with zeros.
-/

namespace WitBindgen

open Heap

/-- The bits of the only word of a list, which has core type `ty`. -/
def bitsOf (ty : WasmType) : List Word → Option Nat
  | [w] => if w.ty = ty then some w.bits else none
  | _ => none

def pairWords (x : Nat × Nat) : List Word := [⟨.pointer, x.1⟩, ⟨.length, x.2⟩]

def pairOf : List Word → Option (Nat × Nat)
  | [a, b] => if a.ty = .pointer ∧ b.ty = .length then some (a.bits, b.bits) else none
  | _ => none

/-- The bits of `count` words of type `i32`. -/
def i32sOf (count : Nat) (ws : List Word) : Option (List Nat) :=
  if ws.length = count ∧ ∀ w ∈ ws, w.ty = .i32 then some (ws.map (·.bits)) else none

/-- Consecutive pieces of the given lengths. -/
def chunks {α : Type} : List Nat → List α → List (List α)
  | [], _ => []
  | n :: ns, xs => xs.take n :: chunks ns (xs.drop n)

@[simp] theorem length_chunks {α : Type} (ns : List Nat) (xs : List α) :
    (chunks ns xs).length = ns.length := by
  induction ns generalizing xs with
  | nil => rfl
  | cons n ns ih => simp [chunks, ih]

theorem chunks_flatten {α : Type} (xss : List (List α)) :
    chunks (xss.map List.length) xss.flatten = xss := by
  induction xss with
  | nil => rfl
  | cons xs xss ih => simp [chunks, ih]

section
variable (T : Target)

/-! ## Lowering -/

def lowerHandle (v : Val) : Exec Event (List Word) := do
  let h ← require v.asHandle
  pure [⟨.i32, h.toNat⟩]

def lowerFields (members : List (Val → Exec Event (List Word))) (v : Val) :
    Exec Event (List Word) := do
  let vs ← require (v.asRecord members.length)
  let wss ← (members.zip vs).mapM fun x => x.1 x.2
  pure wss.flatten

/-- The active case behind its discriminant, in the slots `slotTys`. -/
def lowerArm (slotTys : List WasmType)
    (arms : List (Option (Ty × (Val → Exec Event (List Word))))) (v : Val) :
    Exec Event (List Word) := do
  let (i, payload) ← require (v.asVariant arms)
  match payload with
  | none => pure (disc i :: zeros slotTys)
  | some ((t, lower), x) => do
      let ws ← lower x
      let ws' ← require (castWords T.p (T.W.pushFlat t) slotTys ws)
      pure (disc i :: (ws' ++ zeros (slotTys.drop (T.W.pushFlat t).length)))

/-- The slots behind the discriminant. -/
def Target.slotTys (ty : Ty) : List WasmType := (T.W.pushFlat ty).tail

def lowerFlat : Ty → Val → Exec Event (List Word)
  | .prim q, v => do
      let n ← require (q.encode v)
      pure [⟨q.flat, n⟩]
  | .string, v => do
      let s ← require v.asString
      let x ← lowerString T s
      pure (pairWords x)
  | .errorContext, v => lowerHandle v
  | .type _ t, v => lowerFlat t v
  | .list _ t, v => do
      let vs ← require v.asList
      let x ← lowerBuffer T (T.size t) (T.align t) (vs.map fun v => store T t v)
      pure (pairWords x)
  | .map _ k t, v => do
      let es ← require v.asMap
      let x ← lowerBuffer T (T.entrySize k t) (T.entryAlign k t) (es.map fun e =>
        storeEntry (T.valueOffset k t) (store T k e.1) (store T t e.2))
      pure (pairWords x)
  | .fixedLengthList _ t n, v => do
      let vs ← require (v.asFixed n)
      let wss ← vs.mapM fun v => lowerFlat t v
      pure wss.flatten
  | .record _ _ fields, v => lowerFields (fields.map fun f => lowerFlat f.2) v
  | .tuple _ types, v => lowerFields (types.map fun t => lowerFlat t) v
  | .flags _ _ names, v => do
      let bs ← require (v.asFlags names.length)
      pure ((flagWords (T.W.flagsRepr names.length).count bs).map fun w => ⟨.i32, w⟩)
  | .variant id name cases, v =>
    lowerArm T (T.slotTys (.variant id name cases))
      (cases.map fun c => match _h : c.2 with
        | none => none
        | some t => some (t, lowerFlat t)) v
  | .option id t, v =>
    lowerArm T (T.slotTys (.option id t)) [none, some (t, lowerFlat t)] v
  | .result id ok err, v =>
    lowerArm T (T.slotTys (.result id ok err))
      [match ok with | none => none | some t => some (t, lowerFlat t),
       match err with | none => none | some t => some (t, lowerFlat t)] v
  | .enum _ _ cases, v => do
      let i ← require (v.asEnum cases.length)
      pure [disc i]
  | .handle _ _ _, v => lowerHandle v
  | .future _ _, v => lowerHandle v
  | .stream _ _, v => lowerHandle v
  | .resource _, _ => stuck
  | .unknown _, _ => stuck
termination_by t => sizeOf t
decreasing_by
  all_goals first
    | decreasing_tactic
    | with_reducible exact Ty.sizeOf_field ‹_›
    | with_reducible exact Ty.sizeOf_tuple ‹_›
    | with_reducible exact Ty.sizeOf_arm ‹_› ‹_›

/-! ## Lifting -/

def liftHandle (ws : List Word) : Exec Event Val := do
  let n ← require (bitsOf .i32 ws)
  pure (.handle (BitVec.ofNat 32 n))

def liftFields (members : List (Ty × (List Word → Exec Event Val))) (ws : List Word) :
    Exec Event Val := do
  let pieces := chunks (members.map fun m => (T.W.pushFlat m.1).length) ws
  let vs ← (members.zip pieces).mapM fun x => x.1.2 x.2
  pure (.record vs)

/-- What the active case is given: its own words, cast back from the slots. -/
def unjoin (slotTys : List WasmType) (t : Ty) (ws : List Word) : Exec Event (List Word) :=
  require (castWords T.p slotTys (T.W.pushFlat t) ws)

def liftArm (slotTys : List WasmType) (arms : List (Option (Ty × (List Word → Exec Event Val))))
    (ws : List Word) : Exec Event Val := do
  let d ← require (bitsOf .i32 (ws.take 1))
  let arm ← require arms[d]?
  match arm with
  | none => pure (.variant d none)
  | some (t, lift) => do
      let ws' ← unjoin T slotTys t ws.tail
      let x ← lift ws'
      pure (.variant d (some x))

def liftFlat : Ty → List Word → Exec Event Val
  | .prim q, ws => do
      let n ← require (bitsOf q.flat ws)
      require (q.decode n)
  | .string, ws => do
      let x ← require (pairOf ws)
      liftString x
  | .errorContext, ws => liftHandle ws
  | .type _ t, ws => liftFlat t ws
  | .list _ t, ws => do
      let x ← require (pairOf ws)
      let vs ← loadBuffer (T.size t) (fun a => load T t a) x
      pure (.list vs)
  | .map _ k t, ws => do
      let x ← require (pairOf ws)
      let es ← loadBuffer (T.entrySize k t)
        (loadEntry (T.valueOffset k t) (fun a => load T k a) (fun a => load T t a)) x
      pure (.map es)
  | .fixedLengthList _ t n, ws => do
      let vs ← (chunks (List.replicate n (T.W.pushFlat t).length) ws).mapM fun c => liftFlat t c
      pure (.list vs)
  | .record _ _ fields, ws => liftFields T (fields.map fun f => (f.2, liftFlat f.2)) ws
  | .tuple _ types, ws => liftFields T (types.map fun t => (t, liftFlat t)) ws
  | .flags _ _ names, ws => do
      let bits ← require (i32sOf (T.W.flagsRepr names.length).count ws)
      pure (.flags (flagBits names.length bits))
  | .variant id name cases, ws =>
    liftArm T (T.slotTys (.variant id name cases))
      (cases.map fun c => match _h : c.2 with
        | none => none
        | some t => some (t, liftFlat t)) ws
  | .option id t, ws =>
    liftArm T (T.slotTys (.option id t)) [none, some (t, liftFlat t)] ws
  | .result id ok err, ws =>
    liftArm T (T.slotTys (.result id ok err))
      [match ok with | none => none | some t => some (t, liftFlat t),
       match err with | none => none | some t => some (t, liftFlat t)] ws
  | .enum _ _ cases, ws => do
      let d ← require (bitsOf .i32 ws)
      require (enumVal cases.length d)
  | .handle _ _ _, ws => liftHandle ws
  | .future _ _, ws => liftHandle ws
  | .stream _ _, ws => liftHandle ws
  | .resource _, _ => stuck
  | .unknown _, _ => stuck
termination_by t => sizeOf t
decreasing_by
  all_goals first
    | decreasing_tactic
    | with_reducible exact Ty.sizeOf_field ‹_›
    | with_reducible exact Ty.sizeOf_tuple ‹_›
    | with_reducible exact Ty.sizeOf_arm ‹_› ‹_›

/-! ## Giving back -/

variable (what : Deallocate)

def freeFlatFields (members : List (Ty × (List Word → Exec Event Unit))) (ws : List Word) :
    Exec Event Unit :=
  (members.zip (chunks (members.map fun m => (T.W.pushFlat m.1).length) ws)).forM
    fun x => x.1.2 x.2

def freeFlatArm (slotTys : List WasmType)
    (arms : List (Option (Ty × (List Word → Exec Event Unit)))) (ws : List Word) :
    Exec Event Unit := do
  let d ← require (bitsOf .i32 (ws.take 1))
  let arm ← require arms[d]?
  match arm with
  | none => pure ()
  | some (t, free) => do
      let ws' ← unjoin T slotTys t ws.tail
      free ws'

/-- Lift a handle and drop it, if the deallocation is about handles. -/
def freeHandle (ty : Ty) (ws : List Word) : Exec Event Unit :=
  if what.handles then liftHandle ws >>= dropVal ty else pure ()

def freeFlat : Ty → List Word → Exec Event Unit
  | .string, ws => do
      let x ← require (pairOf ws)
      release ⟨x.1, x.2, 1⟩
  | .type _ t, ws => freeFlat t ws
  | .list _ t, ws => do
      let x ← require (pairOf ws)
      freeBuffer (T.size t) (T.align t) (fun a => freeMem T what t a) x
  | .map _ k t, ws => do
      let x ← require (pairOf ws)
      freeBuffer (T.entrySize k t) (T.entryAlign k t)
        (freeEntry (T.valueOffset k t) (fun a => freeMem T what k a)
          (fun a => freeMem T what t a)) x
  | .record _ _ fields, ws => freeFlatFields T (fields.map fun f => (f.2, freeFlat f.2)) ws
  | .tuple _ types, ws => freeFlatFields T (types.map fun t => (t, freeFlat t)) ws
  | .variant id name cases, ws =>
    freeFlatArm T (T.slotTys (.variant id name cases))
      (cases.map fun c => match _h : c.2 with
        | none => none
        | some t => some (t, freeFlat t)) ws
  | .option id t, ws =>
    freeFlatArm T (T.slotTys (.option id t)) [none, some (t, freeFlat t)] ws
  | .result id ok err, ws =>
    freeFlatArm T (T.slotTys (.result id ok err))
      [match ok with | none => none | some t => some (t, freeFlat t),
       match err with | none => none | some t => some (t, freeFlat t)] ws
  | .handle id (.own r) name, ws => freeHandle what (.handle id (.own r) name) ws
  | .future id t, ws => freeHandle what (.future id t) ws
  | .stream id t, ws => freeHandle what (.stream id t) ws
  | _, _ => pure ()
termination_by t => sizeOf t
decreasing_by
  all_goals first
    | decreasing_tactic
    | with_reducible exact Ty.sizeOf_field ‹_›
    | with_reducible exact Ty.sizeOf_tuple ‹_›
    | with_reducible exact Ty.sizeOf_arm ‹_› ‹_›

end

/-! ## Fields and arms -/

section
variable {T : Target} {what : Deallocate} {ty : Ty}

theorem lowerFlat_fields {types : List Ty} (h : ty.fieldTypes = some types) (v : Val) :
    lowerFlat T ty v = lowerFields (types.map (lowerFlat T)) v := by
  cases h using Ty.fields_cases with
  | record id name fields =>
    rw [lowerFlat, List.map_map]
    rfl
  | tuple id types' =>
    rw [lowerFlat]

theorem liftFlat_fields {types : List Ty} (h : ty.fieldTypes = some types) (ws : List Word) :
    liftFlat T ty ws = liftFields T (types.map fun t => (t, liftFlat T t)) ws := by
  cases h using Ty.fields_cases with
  | record id name fields =>
    rw [liftFlat, List.map_map]
    rfl
  | tuple id types' =>
    rw [liftFlat]

theorem freeFlat_fields {types : List Ty} (h : ty.fieldTypes = some types) (ws : List Word) :
    freeFlat T what ty ws = freeFlatFields T (types.map fun t => (t, freeFlat T what t)) ws := by
  cases h using Ty.fields_cases with
  | record id name fields =>
    rw [freeFlat, List.map_map]
    rfl
  | tuple id types' =>
    rw [freeFlat]

theorem lowerFlat_arms {arms : List (Option Ty)} (h : ty.arms = some arms) (v : Val) :
    lowerFlat T ty v = lowerArm T (T.slotTys ty)
      (arms.map fun o => o.map fun t => (t, lowerFlat T t)) v := by
  cases h using Ty.arms_cases with
  | variant id name cases =>
    rw [lowerFlat]
    congr 1
    exact Ty.map_cases ..
  | option id t =>
    rw [lowerFlat]
    rfl
  | result id ok err =>
    cases ok <;> cases err <;> · rw [lowerFlat]; rfl

theorem liftFlat_arms {arms : List (Option Ty)} (h : ty.arms = some arms) (ws : List Word) :
    liftFlat T ty ws = liftArm T (T.slotTys ty)
      (arms.map fun o => o.map fun t => (t, liftFlat T t)) ws := by
  cases h using Ty.arms_cases with
  | variant id name cases =>
    rw [liftFlat]
    congr 1
    exact Ty.map_cases ..
  | option id t =>
    rw [liftFlat]
    rfl
  | result id ok err =>
    cases ok <;> cases err <;> · rw [liftFlat]; rfl

theorem freeFlat_arms {arms : List (Option Ty)} (h : ty.arms = some arms) (ws : List Word) :
    freeFlat T what ty ws = freeFlatArm T (T.slotTys ty)
      (arms.map fun o => o.map fun t => (t, freeFlat T what t)) ws := by
  cases h using Ty.arms_cases with
  | variant id name cases =>
    rw [freeFlat]
    congr 1
    exact Ty.map_cases ..
  | option id t =>
    rw [freeFlat]
    rfl
  | result id ok err =>
    cases ok <;> cases err <;> · rw [freeFlat]; rfl

end

end WitBindgen
