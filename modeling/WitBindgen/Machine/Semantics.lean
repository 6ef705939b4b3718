import WitBindgen.Machine.Recorder
import WitBindgen.Canon.Flat

/-!
# What the instructions do

The documented meaning of each instruction, over run-time operands that are
either values of the guest's language or core values. An instruction that owns
blocks chooses which of them to run, how often, and what the iteration element,
the base pointer and the variant payload are inside.

A list in canonical form is lowered and lifted as its canonical layout says;
the other instructions only do what their blocks tell them.
-/

namespace WitBindgen

open Heap

/-- An operand at run time. A case without payload binds its payload name to
nothing. -/
inductive RVal where
  | val (v : Val)
  | word (w : Word)
  | nothing

namespace RVal

def asVal : RVal → Option Val
  | .val v => some v
  | _ => none

def asWord : RVal → Option Word
  | .word w => some w
  | _ => none

/-- The bits of an operand of core type `ty`. -/
def bits (ty : WasmType) (x : RVal) : Option Nat := x.asWord.bind fun w => bitsOf ty [w]

def ptr (a : Nat) : RVal := .word ⟨.pointer, a⟩

@[simp] theorem asVal_val (v : Val) : (RVal.val v).asVal = some v := rfl

@[simp] theorem asWord_word (w : Word) : (RVal.word w).asWord = some w := rfl

@[simp] theorem bits_word (ty : WasmType) (w : Word) :
    (RVal.word w).bits ty = bitsOf ty [w] := rfl

@[simp] theorem bits_ptr (a : Nat) : (ptr a).bits .pointer = some a := rfl

end RVal

/-- What a block is run with. -/
structure Ctx where
  args : List RVal
  elem : Option Val
  key : Option Val
  value : Option Val
  base : Option Nat
  payload : Option Val

/-- The machine: the target, and what lies outside the generated code. -/
structure Machine extends Target where
  returnArea : Nat → Nat → Exec Event Nat
  callWasm : String → List Word → Exec Event (List Word)
  callInterface : Function → List Val → Exec Event (Option Val)

namespace Machine

variable (M : Machine)

abbrev Results := Exec Event (List RVal)

abbrev BlockRun := Ctx → Exec Event (List RVal)

/-- Run a block that hands nothing back. -/
def runUnit (b : BlockRun) (ctx : Ctx) : Exec Event Unit := do
  let _ ← b ctx

/-- Run a block that hands one value back. -/
def runVal (b : BlockRun) (ctx : Ctx) : Exec Event Val := do
  let rs ← b ctx
  match rs with
  | [x] => require x.asVal
  | _ => stuck

def runEntry (b : BlockRun) (ctx : Ctx) : Exec Event (Val × Val) := do
  let rs ← b ctx
  match rs with
  | [k, v] => do
      let k ← require k.asVal
      let v ← require v.asVal
      pure (k, v)
  | _ => stuck

/-! ## Groups of instructions -/

def storeWord (ty : WasmType) (k : Nat) (offset : ArchitectureSize) (x addr : RVal) : Results := do
  let n ← require (x.bits ty)
  let a ← require (addr.bits .pointer)
  storeNat (a + offset.eval M.p) k n
  pure []

def loadWord (ty : WasmType) (k : Nat) (extend : Nat → Nat) (offset : ArchitectureSize)
    (addr : RVal) : Results := do
  let a ← require (addr.bits .pointer)
  let n ← loadNat (a + offset.eval M.p) k
  pure [.word ⟨ty, extend n⟩]

def lowerScalar (q : Prim) (x : RVal) : Results := do
  let v ← require x.asVal
  let n ← require (q.encode v)
  pure [.word ⟨q.flat, n⟩]

def liftScalar (q : Prim) (x : RVal) : Results := do
  let n ← require (x.bits q.flat)
  let v ← require (q.decode n)
  pure [.val v]

def lowerHandleOp (x : RVal) : Results := do
  let v ← require x.asVal
  let h ← require v.asHandle
  pure [.word ⟨.i32, h.toNat⟩]

def liftHandleOp (x : RVal) : Results := do
  let n ← require (x.bits .i32)
  pure [.val (.handle (BitVec.ofNat 32 n))]

def pairResults (x : Nat × Nat) : List RVal := [.ptr x.1, .word ⟨.length, x.2⟩]

/-- The pointer and the length of a list. -/
def pairOperands (a b : RVal) : Option (Nat × Nat) :=
  match a.bits .pointer, b.bits .length with
  | some ptr, some len => some (ptr, len)
  | _, _ => none

def decompose (n : Nat) (x : RVal) : Results := do
  let v ← require x.asVal
  let vs ← require (v.asRecord n)
  pure (vs.map .val)

def compose (n : Nat) (xs : List RVal) : Results := do
  let vs ← require (xs.mapM RVal.asVal)
  if vs.length = n then pure [.val (.record vs)] else stuck

/-- Pick the block of the active case and run it with the payload. -/
def lowerCase (arms : List (Option Ty)) (ctx : Ctx) (blocks : List BlockRun) (x : RVal) :
    Results := do
  let v ← require x.asVal
  let (i, payload) ← require (v.asVariant arms)
  let b ← require blocks[i]?
  b { ctx with payload := payload.map (·.2) }

/-- Run the block of the case a discriminant picks and build the variant. -/
def liftCase (ctx : Ctx) (blocks : List BlockRun) (x : RVal) : Results := do
  let d ← require (x.bits .i32)
  let b ← require blocks[d]?
  let rs ← b ctx
  match rs with
  | [] => pure [.val (.variant d none)]
  | [r] => do
      let v ← require r.asVal
      pure [.val (.variant d (some v))]
  | _ => stuck

/-- Run the block a discriminant picks. -/
def freeCase (ctx : Ctx) (blocks : List BlockRun) (x : RVal) : Results := do
  let d ← require (x.bits .i32)
  let b ← require blocks[d]?
  runUnit b ctx
  pure []

/-! ## Every instruction -/

def instSem (i : Instruction) (ctx : Ctx) (blocks : List BlockRun) (xs : List RVal) :
    Results :=
  match i, blocks, xs with
  | .getArg nth, [], [] => do
      let x ← require ctx.args[nth]?
      pure [x]
  | .i32Const val, [], [] => pure [.word ⟨.i32, val.toNat⟩]
  | .bitcasts casts, [], xs => do
      let ws ← require (xs.mapM RVal.asWord)
      let ws' ← require ((casts.zip ws).mapM fun x => x.1.apply M.p x.2)
      pure (ws'.map .word)
  | .constZero tys, [], [] => pure ((zeros tys).map .word)
  -- loads and stores
  | .i32Load offset, [], [a] => M.loadWord .i32 4 id offset a
  | .i32Load8U offset, [], [a] => M.loadWord .i32 1 id offset a
  | .i32Load8S offset, [], [a] => M.loadWord .i32 1 (Prim.extend .s8) offset a
  | .i32Load16U offset, [], [a] => M.loadWord .i32 2 id offset a
  | .i32Load16S offset, [], [a] => M.loadWord .i32 2 (Prim.extend .s16) offset a
  | .i64Load offset, [], [a] => M.loadWord .i64 8 id offset a
  | .f32Load offset, [], [a] => M.loadWord .f32 4 id offset a
  | .f64Load offset, [], [a] => M.loadWord .f64 8 id offset a
  | .pointerLoad offset, [], [a] => M.loadWord .pointer M.p id offset a
  | .lengthLoad offset, [], [a] => M.loadWord .length M.p id offset a
  | .i32Store offset, [], [x, a] => M.storeWord .i32 4 offset x a
  | .i32Store8 offset, [], [x, a] => M.storeWord .i32 1 offset x a
  | .i32Store16 offset, [], [x, a] => M.storeWord .i32 2 offset x a
  | .i64Store offset, [], [x, a] => M.storeWord .i64 8 offset x a
  | .f32Store offset, [], [x, a] => M.storeWord .f32 4 offset x a
  | .f64Store offset, [], [x, a] => M.storeWord .f64 8 offset x a
  | .pointerStore offset, [], [x, a] => M.storeWord .pointer M.p offset x a
  | .lengthStore offset, [], [x, a] => M.storeWord .length M.p offset x a
  -- scalars
  | .i32FromChar, [], [x] => lowerScalar .char x
  | .i64FromU64, [], [x] => lowerScalar .u64 x
  | .i64FromS64, [], [x] => lowerScalar .s64 x
  | .i32FromU32, [], [x] => lowerScalar .u32 x
  | .i32FromS32, [], [x] => lowerScalar .s32 x
  | .i32FromU16, [], [x] => lowerScalar .u16 x
  | .i32FromS16, [], [x] => lowerScalar .s16 x
  | .i32FromU8, [], [x] => lowerScalar .u8 x
  | .i32FromS8, [], [x] => lowerScalar .s8 x
  | .coreF32FromF32, [], [x] => lowerScalar .f32 x
  | .coreF64FromF64, [], [x] => lowerScalar .f64 x
  | .i32FromBool, [], [x] => lowerScalar .bool x
  | .s8FromI32, [], [x] => liftScalar .s8 x
  | .u8FromI32, [], [x] => liftScalar .u8 x
  | .s16FromI32, [], [x] => liftScalar .s16 x
  | .u16FromI32, [], [x] => liftScalar .u16 x
  | .s32FromI32, [], [x] => liftScalar .s32 x
  | .u32FromI32, [], [x] => liftScalar .u32 x
  | .s64FromI64, [], [x] => liftScalar .s64 x
  | .u64FromI64, [], [x] => liftScalar .u64 x
  | .charFromI32, [], [x] => liftScalar .char x
  | .f32FromCoreF32, [], [x] => liftScalar .f32 x
  | .f64FromCoreF64, [], [x] => liftScalar .f64 x
  | .boolFromI32, [], [x] => liftScalar .bool x
  -- lists, strings and maps
  | .listCanonLower t _, [], [x] => do
      let v ← require x.asVal
      let vs ← require v.asList
      let y ← lowerBuffer M.toTarget (M.size t) (M.align t) (vs.map (store M.toTarget t))
      pure (pairResults y)
  | .stringLower _, [], [x] => do
      let v ← require x.asVal
      let s ← require v.asString
      let y ← lowerString M.toTarget s
      pure (pairResults y)
  | .listLower t _, [b], [x] => do
      let v ← require x.asVal
      let vs ← require v.asList
      let y ← lowerBuffer M.toTarget (M.size t) (M.align t) (vs.map fun v a =>
        runUnit b { ctx with elem := some v, base := some a })
      pure (pairResults y)
  | .listCanonLift t _, [], [a, b] => do
      let y ← require (pairOperands a b)
      let vs ← loadBuffer (M.size t) (load M.toTarget t) y
      pure [.val (.list vs)]
  | .stringLift, [], [a, b] => do
      let y ← require (pairOperands a b)
      let v ← liftString y
      pure [.val v]
  | .listLift t _, [b], [p, l] => do
      let y ← require (pairOperands p l)
      let vs ← loadBuffer (M.size t) (fun a => runVal b { ctx with base := some a }) y
      pure [.val (.list vs)]
  | .mapLower k t _, [b], [x] => do
      let v ← require x.asVal
      let es ← require v.asMap
      let y ← lowerBuffer M.toTarget (M.entrySize k t) (M.entryAlign k t) (es.map fun e a =>
        runUnit b { ctx with key := some e.1, value := some e.2, base := some a })
      pure (pairResults y)
  | .mapLift k t _, [b], [p, l] => do
      let y ← require (pairOperands p l)
      let es ← loadBuffer (M.entrySize k t) (fun a => runEntry b { ctx with base := some a }) y
      pure [.val (.map es)]
  | .fixedLengthListLift _ n _, [], xs => do
      let vs ← require (xs.mapM RVal.asVal)
      if vs.length = n then pure [.val (.list vs)] else stuck
  | .fixedLengthListLower _ n _, [], [x] => do
      let v ← require x.asVal
      let vs ← require (v.asFixed n)
      pure (vs.map .val)
  | .fixedLengthListLowerToMemory t n _, [b], [x, a] => do
      let v ← require x.asVal
      let a ← require (a.bits .pointer)
      let vs ← require (v.asFixed n)
      ((slots a (M.size t) n).zip vs).forM fun y =>
        runUnit b { ctx with elem := some y.2, base := some y.1 }
      pure []
  | .fixedLengthListLiftFromMemory t n _, [b], [a] => do
      let a ← require (a.bits .pointer)
      let vs ← (slots a (M.size t) n).mapM fun a => runVal b { ctx with base := some a }
      pure [.val (.list vs)]
  | .iterElem _, [], [] => do
      let v ← require ctx.elem
      pure [.val v]
  | .iterMapKey _, [], [] => do
      let v ← require ctx.key
      pure [.val v]
  | .iterMapValue _, [], [] => do
      let v ← require ctx.value
      pure [.val v]
  | .iterBasePointer, [], [] => do
      let a ← require ctx.base
      pure [.ptr a]
  -- records, tuples, handles, flags
  | .recordLower fields _ _, [], [x] => decompose fields.length x
  | .recordLift fields _ _, [], xs => compose fields.length xs
  | .tupleLower types _, [], [x] => decompose types.length x
  | .tupleLift types _, [], xs => compose types.length xs
  | .handleLower _ _ _, [], [x] => lowerHandleOp x
  | .handleLift _ _ _, [], [x] => liftHandleOp x
  | .futureLower _ _, [], [x] => lowerHandleOp x
  | .futureLift _ _, [], [x] => liftHandleOp x
  | .streamLower _ _, [], [x] => lowerHandleOp x
  | .streamLift _ _, [], [x] => liftHandleOp x
  | .errorContextLower, [], [x] => lowerHandleOp x
  | .errorContextLift, [], [x] => liftHandleOp x
  | .flagsLower names _ _, [], [x] => do
      let v ← require x.asVal
      let bs ← require (v.asFlags names.length)
      pure ((flagWords (M.W.flagsRepr names.length).count bs).map fun n => .word ⟨.i32, n⟩)
  | .flagsLift names _ _, [], xs => do
      let ws ← require (xs.mapM RVal.asWord)
      let bits ← require (i32sOf (M.W.flagsRepr names.length).count ws)
      pure [.val (.flags (flagBits names.length bits))]
  -- variants
  | .variantPayloadName, [], [] =>
    match ctx.payload with
    | some v => pure [.val v]
    | none => pure [.nothing]
  | .variantLower cases _ _ _, blocks, [x] => lowerCase (cases.map (·.2)) ctx blocks x
  | .optionLower t _ _, blocks, [x] => lowerCase [none, some t] ctx blocks x
  | .resultLower ok err _ _, blocks, [x] => lowerCase [ok, err] ctx blocks x
  | .variantLift _ _ _, blocks, [x] => liftCase ctx blocks x
  | .optionLift _ _, blocks, [x] => liftCase ctx blocks x
  | .resultLift _ _ _, blocks, [x] => liftCase ctx blocks x
  | .enumLower cases _ _, [], [x] => do
      let v ← require x.asVal
      let i ← require (v.asEnum cases.length)
      pure [.word (disc i)]
  | .enumLift cases _ _, [], [x] => do
      let d ← require (x.bits .i32)
      let v ← require (enumVal cases.length d)
      pure [.val v]
  -- calls and control
  | .callWasm name _, [], xs => do
      let ws ← require (xs.mapM RVal.asWord)
      let rs ← M.callWasm name ws
      pure (rs.map .word)
  | .callInterface func _, [], xs => do
      let vs ← require (xs.mapM RVal.asVal)
      note (.called func.name vs)
      let r ← M.callInterface func vs
      pure (r.toList.map .val)
  | .return_ _ _, [], _ => pure []
  | .malloc _ size align, [], [] => do
      let a ← allocate M.A (size.eval M.p) (align.eval M.p)
      pure [.ptr a]
  | .guestDeallocate size align, [], [a] => do
      let a ← require (a.bits .pointer)
      release ⟨a, size.eval M.p, align.eval M.p⟩
      pure []
  | .guestDeallocateString, [], [a, b] => do
      let y ← require (pairOperands a b)
      release ⟨y.1, y.2, 1⟩
      pure []
  | .guestDeallocateList t, [b], [p, l] => do
      let y ← require (pairOperands p l)
      freeBuffer (M.size t) (M.align t) (fun a => runUnit b { ctx with base := some a }) y
      pure []
  | .guestDeallocateMap k t, [b], [p, l] => do
      let y ← require (pairOperands p l)
      freeBuffer (M.entrySize k t) (M.entryAlign k t)
        (fun a => runUnit b { ctx with base := some a }) y
      pure []
  | .guestDeallocateVariant _, blocks, [x] => freeCase ctx blocks x
  | .dropHandle ty, [], [x] => do
      let v ← require x.asVal
      dropVal ty v
      pure []
  | .asyncTaskReturn name _, [], xs => do
      let ws ← require (xs.mapM RVal.asWord)
      note (.taskReturn name ws)
      pure []
  | .flush _, [], xs => pure xs
  | _, _, _ => stuck

def step : Code.Meaning Op Ctx RVal Event
  | .inst i, ctx, blocks, xs => M.instSem i ctx blocks xs
  | .returnPointer size align, _, _, _ => do
      let a ← M.returnArea (size.eval M.p) (align.eval M.p)
      pure [.ptr a]

end Machine

end WitBindgen
