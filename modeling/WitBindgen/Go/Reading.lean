import WitBindgen.Library.Reading
import WitBindgen.Machine.RoundTrip
import WitBindgen.Abi.Keeps

/-!
# What Go code reads when it lifts

The Go function generator once more, as far as it reads memory: which bytes each load
touches, and where the loops over lists and maps move the base pointer. Go has no
instruction that loads one or two bytes into an integer; the generator loads a `uint32`
and converts it, whatever the width of the value.

The code of `read_from_memory` stays inside the value, and inside each element of its
lists and maps, exactly if the value has no piece of one or two bytes in the last three
bytes of its place.
-/

namespace WitBindgen.Go.Lift

open Heap Generator Reading

/-! ## Generated code -/

/-- The text of an expression, by what its evaluation reads and yields. The place is the one
that the base pointer in scope points to. -/
abbrev Expr := Place → Reading Nat

abbrev Statement := Place → Reading PUnit

/-- A block that was finished: its code and its results. -/
structure Body where
  code : List Statement
  results : List Expr

def run (code : List Statement) (place : Place) : Reading PUnit := code.forM fun s => s place

def evaluateAt (place : Place) (ops : List Expr) : Reading PUnit := ops.forM fun op => do let _ ← op place

/-- A local variable, and an address that is not loaded. -/
def local_ : Expr := fun _ => pure 0

/-- `base`, and the address that a body is given. -/
def basePointer : Expr := fun place => pure place.start

/-- What an arm of `emit` adds to `src`, and its results. -/
abbrev Lifted := Except Panic (List Statement × List Expr)

/-- `*(*ty)(unsafe.Add(unsafe.Pointer(pointer), offset))`, where `ty` has `width` bytes, and the
conversion of it to an integer of `bytes` bytes. -/
def loaded (width bytes : Nat) (offset : ArchitectureSize) (pointer : Expr) : Expr := fun place => do
  let p ← pointer place
  let n ← Reading.load place (p + offset.eval 4) width
  pure (n % 256 ^ bytes)

def loadAs (width bytes : Nat) (offset : ArchitectureSize) : List Expr → Lifted
  | [pointer] => .ok ([], [loaded width bytes offset pointer])
  | _ => .error .backend

/-- The arms that wrap their operand in another expression. -/
def wrap : List Expr → Lifted
  | [op] => .ok ([], [op])
  | _ => .error .backend

/-- The arms that wrap all their operands. -/
def construct (ops : List Expr) : Lifted := .ok ([], [fun place => do evaluateAt place ops; pure 0])

/-- `StringLift` and `ListCanonLift`: the bytes are not read here. -/
def view : List Expr → Lifted
  | [pointer, length] => .ok ([fun place => evaluateAt place [pointer, length]], [local_])
  | _ => .error .backend

/-- The loop of `ListLift` and `MapLift` over entries of `size` bytes, whose body has `n` results.
The capacity and the bound are evaluated from `length` each time, the address of an entry from
`value`. -/
def loopText (size n : Nat) (value length : Expr) (body : Body) : Statement := fun place => do
  let _ ← length place
  let count ← length place
  (List.range count).forM fun index => do
    let pointer ← value place
    run body.code ⟨pointer + index * size, size⟩
    evaluateAt ⟨pointer + index * size, size⟩ (body.results.take n)
    let _ ← length place

def liftEntries (size : ArchitectureSize) (n : Nat) : List Expr → List Body → Lifted
  | [value, length], [body] =>
    if n ≤ body.results.length then .ok ([loopText (size.eval 4) n value length body], [local_])
    else .error .overflow
  | _, _ => .error .backend

/-- One `case` of a `switch` over a tag. -/
def caseText (body : Body) : Statement := fun place => do
  run body.code place
  evaluateAt place (body.results.take 1)

/-- The block of a case hands back a result if the case has a payload. -/
def caseOf (hasPayload : Bool) (body : Body) : Except Panic Statement :=
  if body.results.isEmpty = !hasPayload then .ok (caseText body) else .error .assert

def switchText (tag : Expr) (cases : List Statement) : Statement := fun place => do
  let t ← tag place
  match cases[t]? with
  | some case => case place
  | none => Reading.panic

/-- `OptionLift`, `ResultLift` and `VariantLift`. -/
def switchOn (payloads : List Bool) : List Expr → List Body → Lifted
  | [tag], bodies => do
      let cases ← (payloads.zip bodies).mapM fun (p, body) => caseOf p body
      .ok ([switchText tag cases], [local_])
  | _, _ => .error .backend

/-- `flags_repr` knows three representations. -/
def flagsOf (repr : FlagsRepr) (ops : List Expr) : Lifted :=
  match ops.getLast?, repr with
  | none, _ => .error .unwrap
  | some value, .u8 | some value, .u16 | some value, .u32 1 => .ok ([], [value])
  | some _, .u32 _ => .error .unreachable

/-- The arms of `emit` that `read_from_memory` reaches. -/
def renderLift (W : WitParser) (i : Instruction) (ops : List Expr) (bodies : List Body) : Lifted :=
  match i with
  | .pointerLoad offset | .lengthLoad offset => loadAs 4 4 offset ops
  | .i32Load8U offset | .i32Load8S offset => loadAs 4 1 offset ops
  | .i32Load16U offset | .i32Load16S offset => loadAs 4 2 offset ops
  | .i32Load offset | .f32Load offset => loadAs 4 4 offset ops
  | .i64Load offset | .f64Load offset => loadAs 8 8 offset ops
  | .boolFromI32 | .u8FromI32 | .s8FromI32 | .u16FromI32 | .s16FromI32 | .u32FromI32
  | .s32FromI32 | .s64FromI64 | .u64FromI64 | .charFromI32 | .f32FromCoreF32 | .f64FromCoreF64
  | .enumLift _ _ _ | .handleLift _ _ _ | .futureLift _ _ | .streamLift _ _ => wrap ops
  | .stringLift | .listCanonLift _ _ => view ops
  | .listLift element _ => liftEntries (W.size element) 1 ops bodies
  | .mapLift key value _ => liftEntries (W.record [key, value]).size 2 ops bodies
  | .tupleLift _ _ => construct ops
  | .recordLift record _ _ => construct (ops.take record.length)
  | .flagsLift flags _ _ => flagsOf (W.flagsRepr flags.length) ops
  | .optionLift _ _ => switchOn [false, true] ops bodies
  | .resultLift ok err _ => switchOn [ok.isSome, err.isSome] ops bodies
  | .variantLift cases _ _ => switchOn (cases.map (·.2.isSome)) ops bodies
  | .iterBasePointer => .ok ([], [basePointer])
  | _ => .error .backend

/-- The fields of `FunctionGenerator` that its code goes through. -/
structure Lifter where
  src : List Statement
  blockStorage : List (List Statement)
  blocks : List Body

/-- `FunctionGenerator`, lifting. -/
abbrev lifter (W : WitParser) : Bindgen where
  State := Lifter
  Operand := Expr
  emit i ops s :=
    if i.blockResults.length ≤ s.blocks.length then do
      let (stmts, results) ← renderLift W i ops (s.blocks.drop (s.blocks.length - i.blockResults.length))
      .ok (results, { s with
        src := s.src ++ stmts
        blocks := s.blocks.take (s.blocks.length - i.blockResults.length) })
    else .error .unwrap
  returnPointer _ _ s := .ok (local_, s)
  pushBlock s := .ok { s with src := [], blockStorage := s.blockStorage ++ [s.src] }
  finishBlock ops s :=
    match s.blockStorage.getLast? with
    | some toRestore => .ok { s with
        src := toRestore
        blockStorage := s.blockStorage.dropLast
        blocks := s.blocks ++ [⟨s.src, ops⟩] }
    | none => .error .unwrap
  isListCanonical
    | .prim .bool | .prim .char => false
    | .prim _ => true
    | _ => false

/-! ## What a value consists of -/

/-- A piece of a value: `bytes` bytes at an offset into a place of `size` bytes. -/
structure Piece where
  size : Nat
  offset : Nat
  bytes : Nat

/-- Four bytes from the start of the piece on are in its place. Wider pieces take what they
need, so this concerns those of one and two bytes. -/
def Piece.Roomy (x : Piece) : Prop := x.bytes < 4 → x.offset + 4 ≤ x.size

/-- `x` is a piece of the value `v`, of type `t`, that is at `offset` in a place of `size` bytes:
a scalar, a discriminant or a word of flags, in the value itself or in an element of one of its
lists and maps. The elements are places of their own. Lists whose elements are used as they are
in memory are not taken apart, and pointers, lengths and handles, of four bytes each, are left
out. -/
inductive PieceOf (T : Target) : Nat → Ty → Nat → Val → Piece → Prop where
  | scalar {size offset : Nat} {q : Prim} {v : Val} : PieceOf T size (.prim q) offset v ⟨size, offset, q.bytes⟩
  | flags {size offset i : Nat} {id : TypeId} {name : String} {names : List String} {v : Val}
      (hi : i < (T.W.flagsRepr names.length).count) :
      PieceOf T size (.flags id name names) offset v
        ⟨size, offset + i * (T.W.flagsRepr names.length).wordBytes, (T.W.flagsRepr names.length).wordBytes⟩
  | enum {size offset : Nat} {id : TypeId} {name : String} {cases : List String} {v : Val} :
      PieceOf T size (.enum id name cases) offset v ⟨size, offset, (T.W.tag cases.length).bytes⟩
  | named {size offset : Nat} {id : TypeId} {t : Ty} {v : Val} {x : Piece} (h : PieceOf T size t offset v x) :
      PieceOf T size (.type id t) offset v x
  | field {size offset : Nat} {ty : Ty} {types : List Ty} (hf : ty.fieldTypes = some types) {vs : List Val}
      {f : ArchitectureSize × Ty} {u : Val} {x : Piece} (hu : (f, u) ∈ (T.W.fieldOffsets types).zip vs)
      (h : PieceOf T size f.2 (offset + f.1.eval T.p) u x) : PieceOf T size ty offset (.record vs) x
  | discriminant {size offset : Nat} {ty : Ty} {arms : List (Option Ty)} (ha : ty.arms = some arms) {v : Val} :
      PieceOf T size ty offset v ⟨size, offset, T.tagBytes ty⟩
  | payload {size offset d : Nat} {ty t : Ty} {arms : List (Option Ty)} (ha : ty.arms = some arms)
      (hd : arms[d]? = some (some t)) {u : Val} {x : Piece}
      (h : PieceOf T size t (offset + T.payloadOffset ty arms) u x) :
      PieceOf T size ty offset (.variant d (some u)) x
  | element {size offset : Nat} {id : TypeId} {t : Ty} (hcanon : (lifter T.W).isListCanonical t = false)
      {vs : List Val} {u : Val} (hu : u ∈ vs) {x : Piece} (h : PieceOf T (T.size t) t 0 u x) :
      PieceOf T size (.list id t) offset (.list vs) x
  | key {size offset : Nat} {id : TypeId} {k t : Ty} {es : List (Val × Val)} {e : Val × Val} (he : e ∈ es)
      {x : Piece} (h : PieceOf T (T.entrySize k t) k 0 e.1 x) : PieceOf T size (.map id k t) offset (.map es) x
  | value {size offset : Nat} {id : TypeId} {k t : Ty} {es : List (Val × Val)} {e : Val × Val} (he : e ∈ es)
      {x : Piece} (h : PieceOf T (T.entrySize k t) t (T.valueOffset k t) e.2 x) :
      PieceOf T size (.map id k t) offset (.map es) x

/-- Every piece of the value has room. -/
def Roomy (T : Target) (size : Nat) (t : Ty) (offset : Nat) (v : Val) : Prop :=
  ∀ x, PieceOf T size t offset v x → x.Roomy

section
variable {T : Target} {size offset : Nat} {v : Val}

theorem roomy_prim {q : Prim} : Roomy T size (.prim q) offset v ↔ (q.bytes < 4 → offset + 4 ≤ size) := by
  constructor
  · exact fun h => h _ .scalar
  · intro h x hx
    cases hx with
    | scalar => exact h
    | field hf => cases hf
    | discriminant ha => cases ha
    | payload ha => cases ha

theorem roomy_flags {id : TypeId} {name : String} {names : List String} :
    Roomy T size (.flags id name names) offset v ↔ ∀ i < (T.W.flagsRepr names.length).count,
      (T.W.flagsRepr names.length).wordBytes < 4 →
        offset + i * (T.W.flagsRepr names.length).wordBytes + 4 ≤ size := by
  constructor
  · exact fun h i hi => h _ (.flags hi)
  · intro h x hx
    cases hx with
    | flags hi => exact h _ hi
    | field hf => cases hf
    | discriminant ha => cases ha
    | payload ha => cases ha

theorem roomy_enum {id : TypeId} {name : String} {cases : List String} :
    Roomy T size (.enum id name cases) offset v ↔ ((T.W.tag cases.length).bytes < 4 → offset + 4 ≤ size) := by
  constructor
  · exact fun h => h _ .enum
  · intro h x hx
    cases hx with
    | enum => exact h
    | field hf => cases hf
    | discriminant ha => cases ha
    | payload ha => cases ha

theorem roomy_named {id : TypeId} {t : Ty} : Roomy T size (.type id t) offset v ↔ Roomy T size t offset v := by
  constructor
  · exact fun h x hx => h x (.named hx)
  · intro h x hx
    cases hx with
    | named hx => exact h x hx
    | field hf => cases hf
    | discriminant ha => cases ha
    | payload ha => cases ha

theorem roomy_fields {ty : Ty} {types : List Ty} (hf : ty.fieldTypes = some types) {vs : List Val} :
    Roomy T size ty offset (.record vs) ↔
      ∀ y ∈ (T.W.fieldOffsets types).zip vs, Roomy T size y.1.2 (offset + y.1.1.eval T.p) y.2 := by
  constructor
  · exact fun h y hy x hx => h x (.field hf hy hx)
  · intro h x hx
    cases hx with
    | field hf' hu hx =>
      obtain rfl := Option.some.inj (hf.symm.trans hf')
      exact h _ hu x hx
    | discriminant ha => cases ty <;> cases hf <;> cases ha
    | _ => cases hf

theorem roomy_arms {ty : Ty} {arms : List (Option Ty)} (ha : ty.arms = some arms) {d : Nat} {payload : Option Val} :
    Roomy T size ty offset (.variant d payload) ↔ (T.tagBytes ty < 4 → offset + 4 ≤ size) ∧
      ∀ t, arms[d]? = some (some t) → ∀ u ∈ payload, Roomy T size t (offset + T.payloadOffset ty arms) u := by
  constructor
  · intro h
    refine ⟨h _ (.discriminant ha), fun t ht u hu x hx => ?_⟩
    obtain rfl := Option.mem_def.mp hu
    exact h x (.payload ha ht hx)
  · rintro ⟨htag, hpayload⟩ x hx
    cases hx with
    | discriminant => exact htag
    | payload ha' hd hx =>
      obtain rfl := Option.some.inj (ha.symm.trans ha')
      exact hpayload _ hd _ rfl x hx
    | _ => cases ha

theorem roomy_list {id : TypeId} {t : Ty} {vs : List Val} :
    Roomy T size (.list id t) offset (.list vs) ↔
      ((lifter T.W).isListCanonical t = false → ∀ u ∈ vs, Roomy T (T.size t) t 0 u) := by
  constructor
  · exact fun h hcanon u hu x hx => h x (.element hcanon hu hx)
  · intro h x hx
    cases hx with
    | element hcanon hu hx => exact h hcanon _ hu x hx
    | discriminant ha => cases ha

theorem roomy_map {id : TypeId} {k t : Ty} {es : List (Val × Val)} :
    Roomy T size (.map id k t) offset (.map es) ↔ ∀ e ∈ es,
      Roomy T (T.entrySize k t) k 0 e.1 ∧ Roomy T (T.entrySize k t) t (T.valueOffset k t) e.2 := by
  constructor
  · exact fun h e he => ⟨fun x hx => h x (.key he hx), fun x hx => h x (.value he hx)⟩
  · intro h x hx
    cases hx with
    | key he hx => exact (h _ he).1 x hx
    | value he hx => exact (h _ he).2 x hx
    | discriminant ha => cases ha

/-- Strings and handles have no narrow pieces. -/
theorem roomy_plain {ty : Ty} (hty : ty = .string ∨ (∃ id h name, ty = .handle id h name) ∨
    (∃ id t, ty = .future id t) ∨ ∃ id t, ty = .stream id t) : Roomy T size ty offset v := by
  intro x hx
  rcases hty with rfl | ⟨id, h, name, rfl⟩ | ⟨id, t, rfl⟩ | ⟨id, t, rfl⟩ <;>
    cases hx with
    | field hf => cases hf
    | discriminant ha => cases ha
    | payload ha => cases ha

end

/-! ## What the generator prints -/

section
variable {W : WitParser}

abbrev LGen (W : WitParser) := Gen (lifter W)

/-- `g` takes the operands `ops` from the stack, prints `code` and leaves `outs`. -/
def Prints (g : LGen W Unit) (ops : List Expr) (code : List Statement) (outs : List Expr) : Prop :=
  ∀ s below, s.stack = below ++ ops → g s = .ok ((), { s with
    stack := below ++ outs
    bindgen := { s.bindgen with src := s.bindgen.src ++ code } })

/-- `g` finishes the blocks `bodies`. -/
def Gathers (g : LGen W PUnit) (bodies : List Body) : Prop :=
  ∀ s, g s = .ok (⟨⟩, { s with bindgen := { s.bindgen with blocks := s.bindgen.blocks ++ bodies } })

/-- `g` panics, wherever it runs. -/
def Fails {α : Type} (g : Gen (lifter W) α) : Prop := ∀ s, ∃ e, g s = .error e

/-- `g` panics, or prints something with `Q`. -/
def Emission (g : LGen W Unit) (ops : List Expr) (Q : List Statement → List Expr → Prop) : Prop :=
  Fails g ∨ ∃ code outs, Prints g ops code outs ∧ Q code outs

variable {g : LGen W Unit} {ops outs outs' : List Expr} {code code' : List Statement} {bodies : List Body}
  {i : Instruction}

theorem Fails.bind {α β : Type} {g : Gen (lifter W) α} {f : α → Gen (lifter W) β} (h : Fails g) :
    Fails (g >>= f) := by
  intro s
  obtain ⟨e, he⟩ := h s
  exact ⟨e, bind_error he⟩

theorem Fails.of_bind {α β : Type} {g : Gen (lifter W) α} {f : α → Gen (lifter W) β} (h : ∀ x, Fails (f x)) :
    Fails (g >>= f) := by
  intro s
  cases hg : g s with
  | error e => exact ⟨e, bind_error hg⟩
  | ok r =>
    obtain ⟨e, he⟩ := h r.1 r.2
    exact ⟨e, (bind_ok hg).trans he⟩

theorem Fails.emit (h : ∀ ops bodies, ∃ e, renderLift W i ops bodies = .error e) :
    Fails (emit W i : LGen W Unit) := by
  intro s
  unfold Generator.emit
  dsimp only
  split
  · obtain ⟨e, he⟩ := h (s.stack.drop (s.stack.length - i.operandsLen W))
      (s.bindgen.blocks.drop (s.bindgen.blocks.length - i.blockResults.length))
    split
    · exact ⟨_, rfl⟩
    · next results bindgen hemit =>
      split at hemit
      · rw [he] at hemit
        exact nomatch hemit
      · exact nomatch hemit
  · exact ⟨_, rfl⟩

theorem emit_printed {s : GenState (lifter W)} {below : List Expr} {before : List Body}
    (hs : s.stack = below ++ ops) (hblocks : s.bindgen.blocks = before ++ bodies)
    (hops : ops.length = i.operandsLen W) (hbodies : bodies.length = i.blockResults.length)
    (hrender : renderLift W i ops bodies = .ok (code, outs)) (houts : outs.length = i.resultsLen W) :
    emit W i s = .ok ((), { s with
      stack := below ++ outs
      bindgen := { s.bindgen with src := s.bindgen.src ++ code, blocks := before } }) := by
  refine Generator.emit_run hs hops ?_ houts
  have hlen : s.bindgen.blocks.length - i.blockResults.length = before.length := by
    rw [hblocks, List.length_append, hbodies, Nat.add_sub_cancel]
  have hle : i.blockResults.length ≤ s.bindgen.blocks.length := by
    rw [hblocks, List.length_append, hbodies]
    exact Nat.le_add_left ..
  show (if i.blockResults.length ≤ s.bindgen.blocks.length then _ else _) = _
  rw [if_pos hle, hlen, hblocks, List.drop_left, List.take_left, hrender]
  rfl

theorem Gathers.emit {g : LGen W PUnit} (h : Gathers g bodies) (hops : ops.length = i.operandsLen W)
    (hbodies : bodies.length = i.blockResults.length) (hrender : renderLift W i ops bodies = .ok (code, outs))
    (houts : outs.length = i.resultsLen W) : Prints (g >>= fun _ => Generator.emit W i) ops code outs := by
  intro s below hs
  exact (bind_ok (h s)).trans (emit_printed hs rfl hops hbodies hrender houts)

theorem Prints.emit (hops : ops.length = i.operandsLen W) (hbodies : i.blockResults = [])
    (hrender : renderLift W i ops [] = .ok (code, outs)) (houts : outs.length = i.resultsLen W) :
    Prints (Generator.emit W i : LGen W Unit) ops code outs := by
  intro s below hs
  exact emit_printed hs (List.append_nil _).symm hops (by rw [hbodies]; rfl) hrender houts

theorem Prints.pure : Prints (Pure.pure () : LGen W Unit) ops [] ops := by
  intro s below hs
  rw [List.append_nil, ← hs]
  rfl

theorem Prints.push (x : Expr) : Prints (Generator.push x : LGen W Unit) ops [] (ops ++ [x]) := by
  intro s below hs
  rw [List.append_nil, ← List.append_assoc, ← hs]
  rfl

theorem Prints.bind {f : LGen W Unit} (h : Prints g ops code outs) (h' : Prints f outs code' outs') :
    Prints (g >>= fun _ => f) ops (code ++ code') outs' := by
  intro s below hs
  rw [bind_ok (h s below hs), h' _ below rfl, List.append_assoc]

theorem Prints.frame (h : Prints g ops code outs) (below : List Expr) :
    Prints g (below ++ ops) code (below ++ outs) := by
  intro s below' hs
  rw [h s (below' ++ below) (by rw [hs, List.append_assoc]), List.append_assoc]

theorem Prints.block {k : Nat} (h : Prints g [] code outs) (hk : outs.length = k) :
    Gathers (block k g) [⟨code, outs⟩] := by
  intro s
  subst hk
  have hpush : (pushBlock : LGen W Unit) s = .ok ((), { s with
      bindgen := { s.bindgen with src := [], blockStorage := s.bindgen.blockStorage ++ [s.bindgen.src] } }) := rfl
  have hbody := h { s with
      bindgen := { s.bindgen with src := [], blockStorage := s.bindgen.blockStorage ++ [s.bindgen.src] } }
    s.stack (List.append_nil _).symm
  refine (bind_ok hpush).trans ((bind_ok hbody).trans (finishBlock_run rfl ?_))
  simp

theorem Fails.block {k : Nat} (h : Fails g) : Fails (block k g) := Fails.of_bind fun _ => h.bind

theorem Gathers.nil : Gathers (Pure.pure ⟨⟩ : LGen W PUnit) [] := by
  intro s
  simp only [List.append_nil]
  rfl

theorem Gathers.append {g f : LGen W PUnit} {bodies' : List Body} (h : Gathers g bodies) (h' : Gathers f bodies') :
    Gathers (g >>= fun _ => f) (bodies ++ bodies') := by
  intro s
  rw [bind_ok (h s), h' _, List.append_assoc]

/-- A loop whose turns each finish a block. -/
theorem gathers_forM {α : Type} {f : α → LGen W PUnit} {Q : α → Body → Prop} {xs : List α}
    (h : ∀ x ∈ xs, Fails (f x) ∨ ∃ body, Gathers (f x) [body] ∧ Q x body) :
    Fails (xs.forM f) ∨ ∃ bodies, Gathers (xs.forM f) bodies ∧ List.Forall₂ Q xs bodies := by
  induction xs with
  | nil => exact Or.inr ⟨[], Gathers.nil, .nil⟩
  | cons x xs ih =>
    rcases h x List.mem_cons_self with hfails | ⟨body, hbody, hQ⟩
    · exact Or.inl hfails.bind
    · rcases ih fun y hy => h y (List.mem_cons_of_mem _ hy) with hfails | ⟨bodies, hbodies, hall⟩
      · exact Or.inl (Fails.of_bind fun _ => hfails)
      · exact Or.inr ⟨body :: bodies, hbody.append hbodies, .cons hQ hall⟩

theorem Emission.bind {f : LGen W Unit} {Q R : List Statement → List Expr → Prop} (h : Emission g ops Q)
    (hf : ∀ code outs, Q code outs → Emission f outs fun code' outs' => R (code ++ code') outs') :
    Emission (g >>= fun _ => f) ops R := by
  rcases h with hfails | ⟨code, outs, hprints, hQ⟩
  · exact Or.inl hfails.bind
  · rcases hf code outs hQ with hfails | ⟨code', outs', hprints', hR⟩
    · exact Or.inl (Fails.of_bind fun _ => hfails)
    · exact Or.inr ⟨_, outs', hprints.bind hprints', hR⟩

theorem Emission.of_prints {f : LGen W Unit} {R : List Statement → List Expr → Prop} (h : Prints g ops [] outs)
    (hf : Emission f outs R) : Emission (g >>= fun _ => f) ops R := by
  rcases hf with hfails | ⟨code, outs', hprints, hR⟩
  · exact Or.inl (Fails.of_bind fun _ => hfails)
  · exact Or.inr ⟨code, outs', h.bind hprints, hR⟩

/-- Operands below those of a step stay where they are. -/
theorem Emission.frame {Q : List Statement → List Expr → Prop} (h : Emission g [] Q) (below : List Expr) :
    Emission g below fun code outs' => ∃ outs, outs' = below ++ outs ∧ Q code outs := by
  refine h.imp id fun ⟨code, outs, hprints, hQ⟩ => ?_
  have hframe := hprints.frame below
  rw [List.append_nil] at hframe
  exact ⟨code, _, hframe, outs, rfl, hQ⟩

theorem Emission.mono {Q R : List Statement → List Expr → Prop} (h : Emission g ops Q)
    (hQR : ∀ code outs, Q code outs → R code outs) : Emission g ops R :=
  h.imp id fun ⟨code, outs, hprints, hQ⟩ => ⟨code, outs, hprints, hQR code outs hQ⟩

end

/-! ## Evaluating operands -/

section
variable {mem : Nat → UInt8} {place : Place} {fits fits' : Prop}

theorem stays_loaded {width bytes : Nat} {offset : ArchitectureSize} {P : Nat → Prop}
    (h : P (peek mem (place.start + offset.eval 4) width % 256 ^ bytes)) :
    Stays mem (offset.eval 4 + width ≤ place.size) (loaded width bytes offset basePointer place) P := by
  have hpointer : Stays mem True (basePointer place) (· = place.start) := Stays.pure rfl
  have hload : Stays mem _ (Reading.load place (place.start + offset.eval 4) width)
      (fun n => P (n % 256 ^ bytes)) := Stays.load h
  have hread : Stays mem (True ∧ offset.eval 4 + width ≤ place.size)
      (loaded width bytes offset basePointer place) P := by
    refine hpointer.bind fun p hp => ?_
    subst hp
    refine (hload.bind fun n hn => Stays.pure hn).congr ?_
    rw [and_true]
    omega
  exact hread.congr (iff_of_eq (true_and _))

theorem Stays.run_nil : Stays mem True (run [] place) fun _ => True := Stays.pure trivial

theorem Stays.run_singleton {s : Statement} (h : Stays mem fits (s place) fun _ => True) :
    Stays mem fits (run [s] place) fun _ => True := (h.seq Stays.run_nil).congr (iff_of_eq (and_true _))

theorem Stays.run_append {code code' : List Statement} (h : Stays mem fits (run code place) fun _ => True)
    (h' : Stays mem fits' (run code' place) fun _ => True) :
    Stays mem (fits ∧ fits') (run (code ++ code') place) fun _ => True := by
  have happend : run (code ++ code') place = (run code place >>= fun _ => run code' place) :=
    List.forM_append ..
  rw [happend]
  exact h.seq h'

theorem Stays.evaluate_nil : Stays mem True (evaluateAt place []) fun _ => True := Stays.pure trivial

theorem Stays.evaluate_cons {op : Expr} {ops : List Expr} (h : Stays mem fits (op place) fun _ => True)
    (h' : Stays mem fits' (evaluateAt place ops) fun _ => True) :
    Stays mem (fits ∧ fits') (evaluateAt place (op :: ops)) fun _ => True := by
  have hop : Stays mem fits (do let _ ← op place : Reading PUnit) fun _ => True :=
    (h.seq (Stays.pure (P := fun _ => True) trivial)).congr (iff_of_eq (and_true _))
  exact hop.seq h'

theorem Stays.evaluate_append {ops ops' : List Expr} (h : Stays mem fits (evaluateAt place ops) fun _ => True)
    (h' : Stays mem fits' (evaluateAt place ops') fun _ => True) :
    Stays mem (fits ∧ fits') (evaluateAt place (ops ++ ops')) fun _ => True := by
  have happend : evaluateAt place (ops ++ ops') = (evaluateAt place ops >>= fun _ => evaluateAt place ops') :=
    List.forM_append ..
  rw [happend]
  exact h.seq h'

theorem Stays.evaluate_one {op : Expr} (h : Stays mem fits (op place) fun _ => True) :
    Stays mem fits (evaluateAt place [op]) fun _ => True :=
  (Stays.evaluate_cons h Stays.evaluate_nil).congr (iff_of_eq (and_true _))

end

/-! ## Reading a value -/

/-- The code and the results together stay in their places exactly if `fits` holds. -/
def Covers (mem : Nat → UInt8) (place : Place) (fits : Prop) (code : List Statement) (outs : List Expr) : Prop :=
  ∃ inCode inResults, (inCode ∧ inResults ↔ fits) ∧ Stays mem inCode (run code place) (fun _ => True) ∧
    Stays mem inResults (evaluateAt place outs) fun _ => True

/-- What is printed to read a value of type `t` at `offset` into its place stays in the places of
the value and of its elements exactly if the value is roomy. -/
def ReadsAs (T : Target) (t : Ty) (offset : ArchitectureSize) (code : List Statement) (outs : List Expr) : Prop :=
  outs.length = 1 ∧ ∀ mem w place v, Shows w mem →
    WitBindgen.load T t (place.start + offset.eval T.p) w = .ok (v, w) →
    offset.eval T.p + T.size t ≤ place.size →
      Covers mem place (Roomy T place.size t (offset.eval T.p) v) code outs

def ReadOk (T : Target) (t : Ty) : Prop :=
  ∀ offset, Emission (readFromMemory T.W t basePointer offset : LGen T.W Unit) [] (ReadsAs T t offset)

section
variable {T : Target} {offset : ArchitectureSize}

section
variable {mem : Nat → UInt8} {place : Place} {fits fits' : Prop} {code code' : List Statement} {outs outs' : List Expr}

theorem Covers.congr (h : Covers mem place fits code outs) (hfits : fits ↔ fits') :
    Covers mem place fits' code outs := propext hfits ▸ h

theorem Covers.nil : Covers mem place True [] [] := ⟨True, True, by simp, Stays.run_nil, Stays.evaluate_nil⟩

theorem Covers.append (h : Covers mem place fits code outs) (h' : Covers mem place fits' code' outs') :
    Covers mem place (fits ∧ fits') (code ++ code') (outs ++ outs') := by
  obtain ⟨f₁, f₂, hf, hcode, houts⟩ := h
  obtain ⟨f₁', f₂', hf', hcode', houts'⟩ := h'
  refine ⟨f₁ ∧ f₁', f₂ ∧ f₂', ?_, Stays.run_append hcode hcode', Stays.evaluate_append houts houts'⟩
  rw [← hf, ← hf']
  tauto

/-- Code whose results are not read from memory. -/
theorem Covers.of_code {s : Statement} (h : Stays mem fits (s place) fun _ => True) :
    Covers mem place fits [s] [local_] :=
  ⟨fits, True, iff_of_eq (and_true _), Stays.run_singleton h, Stays.evaluate_one (Stays.pure trivial)⟩

/-- An expression that is made of others. -/
theorem Covers.construct (h : Covers mem place fits code outs) :
    Covers mem place fits code [fun place => do evaluateAt place outs; pure 0] := by
  obtain ⟨f₁, f₂, hf, hcode, houts⟩ := h
  refine ⟨f₁, f₂, hf, hcode, Stays.evaluate_one ?_⟩
  exact (houts.seq (Stays.pure (P := fun _ => True) trivial)).congr (iff_of_eq (and_true _))

theorem Covers.seq (h : Covers mem place fits code outs) :
    Stays mem fits (do run code place; evaluateAt place outs) fun _ => True := by
  obtain ⟨f₁, f₂, hf, hcode, houts⟩ := h
  exact (hcode.seq houts).congr hf

end

/-! ### One load -/

theorem emitAndLift_prints {W : WitParser} {i j : Instruction} {width bytes : Nat}
    (hload : ∀ ops, renderLift W i ops [] = loadAs width bytes offset ops) (hops : i.operandsLen W = 1)
    (hblocks : i.blockResults = []) (hk : i.resultsLen W = 1)
    (hwrap : ∀ ops, renderLift W j ops [] = wrap ops) (hops' : j.operandsLen W = 1)
    (hblocks' : j.blockResults = []) (hk' : j.resultsLen W = 1) :
    Prints (emitAndLift W (emit W j) basePointer i : LGen W Unit) [] [] [loaded width bytes offset basePointer] := by
  have hi : Prints (emit W i : LGen W Unit) [basePointer] [] [loaded width bytes offset basePointer] :=
    Prints.emit hops.symm hblocks (hload _) hk.symm
  have hj : Prints (emit W j : LGen W Unit) [loaded width bytes offset basePointer] []
      [loaded width bytes offset basePointer] := Prints.emit hops'.symm hblocks' (hwrap _) hk'.symm
  exact (Prints.push basePointer).bind (hi.bind hj)

/-- A value that is read with one load. -/
theorem readsAs_loaded {t : Ty} {width bytes : Nat}
    (hfits : ∀ size v, offset.eval T.p + T.size t ≤ size →
      (offset.eval 4 + width ≤ size ↔ Roomy T size t (offset.eval T.p) v)) :
    ReadsAs T t offset [] [loaded width bytes offset basePointer] := by
  refine ⟨rfl, fun mem w place v _ _ hin => ?_⟩
  exact ⟨True, _, (iff_of_eq (true_and _)).trans (hfits place.size v hin), Stays.run_nil,
    Stays.evaluate_one (stays_loaded trivial)⟩

theorem readOk_prim (hT : T.W.Lawful T.p) (hp : T.p = 4) (q : Prim) : ReadOk T (.prim q) := by
  intro offset
  have hprints : Prints (emitAndLift T.W (emit T.W (liftPrim q)) basePointer (loadPrim offset q) : LGen T.W Unit)
      [] [] [loaded (max 4 q.bytes) q.bytes offset basePointer] :=
    emitAndLift_prints (by cases q <;> exact fun _ => rfl) (by cases q <;> rfl) (by cases q <;> rfl)
      (by cases q <;> rfl) (by cases q <;> exact fun _ => rfl) (by cases q <;> rfl) (by cases q <;> rfl)
      (by cases q <;> rfl)
  rw [readFromMemory, lift]
  refine Or.inr ⟨_, _, hprints, readsAs_loaded fun size v hin => ?_⟩
  rw [Target.size, hT.size_prim] at hin
  rw [roomy_prim]
  rw [hp] at hin ⊢
  omega

theorem readOk_handle (hp : T.p = 4) {t : Ty} {j : Instruction} (hsize : T.size t = 4)
    (hplain : ∀ size offset v, Roomy T size t offset v)
    (hread : ∀ offset, (readFromMemory T.W t basePointer offset : LGen T.W Unit) =
      emitAndLift T.W (emit T.W j) basePointer (.i32Load offset))
    (hwrap : ∀ ops, renderLift T.W j ops [] = wrap ops) (hops : j.operandsLen T.W = 1)
    (hblocks : j.blockResults = []) (hk : j.resultsLen T.W = 1) : ReadOk T t := by
  intro offset
  rw [hread]
  refine Or.inr ⟨_, _, emitAndLift_prints (fun _ => rfl) rfl rfl rfl hwrap hops hblocks hk,
    readsAs_loaded fun size v hin => ?_⟩
  rw [hsize, hp] at hin
  exact iff_of_true hin (hplain _ _ _)

theorem loadTag_prints {W : WitParser} {repr : IntRepr} (h : repr ≠ .u64) :
    Prints (loadIntrepr W offset repr : LGen W Unit) [basePointer] [] [loaded 4 repr.bytes offset basePointer] := by
  cases repr with
  | u64 => exact absurd rfl h
  | u8 | u16 | u32 => exact Prints.emit rfl rfl rfl rfl

theorem bytes_le {repr : IntRepr} (h : repr ≠ .u64) : repr.bytes ≤ 4 := by
  cases repr <;> first | exact absurd rfl h | decide

theorem readOk_enum (hT : T.W.Lawful T.p) (hp : T.p = 4) (id : TypeId) (name : String) (cases : List String) :
    ReadOk T (.enum id name cases) := by
  intro offset
  have htag := hT.tag_ne_u64 cases.length
  have hlift : Prints (emit T.W (.enumLift cases name id) : LGen T.W Unit)
      [loaded 4 (T.W.tag cases.length).bytes offset basePointer] []
      [loaded 4 (T.W.tag cases.length).bytes offset basePointer] := Prints.emit rfl rfl rfl rfl
  rw [readFromMemory, lift]
  refine Or.inr ⟨_, _, (Prints.push basePointer).bind ((loadTag_prints htag).bind hlift),
    readsAs_loaded fun size v hin => ?_⟩
  have hsize := hT.size_enum id name cases
  have hle := bytes_le htag
  rw [Target.size] at hin
  rw [roomy_enum]
  rw [hp] at hin hsize ⊢
  omega

theorem loadFlags_prints {W : WitParser} {repr : FlagsRepr} (h : repr.count = 1) :
    Prints (loadFlags W repr basePointer offset : LGen W Unit) [] [] [loaded 4 repr.wordBytes offset basePointer] := by
  cases repr with
  | u8 | u16 => exact (Prints.push basePointer).bind (loadTag_prints nofun)
  | u32 n =>
    obtain rfl : n = 1 := h
    have hword : Prints (emit W (.i32Load (offset.addBytes (0 * 4))) : LGen W Unit) [basePointer] []
        [loaded 4 4 offset basePointer] := Prints.emit rfl rfl rfl rfl
    have hpush : Prints (push basePointer : LGen W Unit) [] [] [basePointer] := Prints.push basePointer
    exact (hpush.bind hword).bind Prints.pure

/-- Go has flags of one word only. -/
theorem readOk_flags (hT : T.W.Lawful T.p) (hp : T.p = 4) (id : TypeId) (name : String) (names : List String) :
    ReadOk T (.flags id name names) := by
  intro offset
  rw [readFromMemory, lift]
  by_cases hcount : (T.W.flagsRepr names.length).count = 1
  · have hone : ∀ x, flagsOf (T.W.flagsRepr names.length) [x] = .ok ([], [x]) := by
      intro x
      cases hrepr : T.W.flagsRepr names.length with
      | u8 | u16 => rfl
      | u32 n =>
        rw [hrepr] at hcount
        obtain rfl : n = 1 := hcount
        rfl
    have hlift : ∀ x, Prints (emit T.W (.flagsLift names name id) : LGen T.W Unit) [x] [] [x] :=
      fun x => Prints.emit hcount.symm rfl (hone x) rfl
    refine Or.inr ⟨_, _, (loadFlags_prints hcount).bind (hlift _), readsAs_loaded fun size v hin => ?_⟩
    have hsize := hT.size_flags id name names
    have hbytes : (T.W.flagsRepr names.length).wordBytes ≤ 4 := by
      cases T.W.flagsRepr names.length <;> simp [FlagsRepr.wordBytes]
    rw [Target.size] at hin
    rw [roomy_flags, hcount]
    rw [hcount, Nat.mul_one] at hsize
    simp only [Nat.lt_one_iff, forall_eq, Nat.zero_mul, Nat.add_zero]
    rw [hp] at hin hsize ⊢
    omega
  · refine Or.inl (Fails.of_bind fun _ => Fails.emit fun ops bodies => ?_)
    simp only [renderLift]
    unfold flagsOf
    cases hrepr : T.W.flagsRepr names.length with
    | u8 | u16 =>
      rw [hrepr] at hcount
      exact absurd rfl hcount
    | u32 n =>
      rw [hrepr] at hcount
      cases ops.getLast? with
      | none => exact ⟨_, rfl⟩
      | some x =>
        rcases n with _ | _ | n
        · exact ⟨_, rfl⟩
        · exact absurd rfl hcount
        · exact ⟨_, rfl⟩

/-! ### Strings, lists and maps -/

def pointerAt (offset : ArchitectureSize) : Expr := loaded 4 4 offset basePointer

def lengthAt (offset : ArchitectureSize) : Expr := loaded 4 4 (offset + Alignment.pointer.toSize) basePointer

theorem readListFromMemory_emission {W : WitParser} {ty : Ty} {lift : LGen W Unit}
    {R : List Statement → List Expr → Prop} (halign : W.align ty = .pointer)
    (h : Emission lift [pointerAt offset, lengthAt offset] R) :
    Emission (readListFromMemory W ty lift basePointer offset) [] R := by
  have hpointer : Prints (emit W (.pointerLoad offset) : LGen W Unit) [basePointer] [] [pointerAt offset] :=
    Prints.emit rfl rfl rfl rfl
  have hlength : Prints (emit W (.lengthLoad (offset + (W.align ty).toSize)) : LGen W Unit) [basePointer] []
      [lengthAt offset] := by
    rw [halign]
    exact Prints.emit rfl rfl rfl rfl
  have hsecond : Prints (push basePointer : LGen W Unit) [pointerAt offset] [] [pointerAt offset, basePointer] :=
    Prints.push basePointer
  exact Emission.of_prints (Prints.push basePointer) (Emission.of_prints hpointer
    (Emission.of_prints hsecond (Emission.of_prints (hlength.frame [pointerAt offset]) h)))

section
variable {mem : Nat → UInt8} {w : World Event} {place : Place} {x : Nat × Nat}

/-- What the two operands of a list evaluate to. -/
structure PairAt (mem : Nat → UInt8) (place : Place) (offset : ArchitectureSize) (x : Nat × Nat) : Prop where
  pointer : Stays mem True (pointerAt offset place) (· = x.1)
  length : Stays mem True (lengthAt offset place) (· = x.2)

theorem pairAt (hp : T.p = 4) (hmem : Shows w mem) (hin : offset.eval T.p + 2 * T.p ≤ place.size)
    (h : loadPair T (place.start + offset.eval T.p) w = .ok (x, w)) : PairAt mem place offset x := by
  obtain ⟨ptr, w₁, hptr, hrest⟩ := run_bind_eq_ok h
  obtain rfl := ReadOnly.loadNat _ _ w ptr w₁ hptr
  obtain ⟨len, w₂, hlen, hlast⟩ := run_bind_eq_ok hrest
  obtain rfl := ReadOnly.loadNat _ _ _ len w₂ hlen
  cases hlast
  rw [hp] at hin hptr hlen
  have hword : ∀ a, peek mem a 4 % 256 ^ 4 = peek mem a 4 := fun a => peek_mod a 4 0
  constructor
  · refine (stays_loaded ?_).congr (iff_of_true (by omega) trivial)
    rw [hword]
    exact peek_of_loadNat hmem hptr
  · have hend : (offset + Alignment.pointer.toSize).eval 4 = offset.eval 4 + 4 := by
      rw [ArchitectureSize.eval_add]
      rfl
    refine (stays_loaded ?_).congr (iff_of_true (by omega) trivial)
    rw [hword, hend, ← Nat.add_assoc]
    exact peek_of_loadNat hmem hlen

theorem PairAt.view (h : PairAt mem place offset x) :
    Covers mem place True [fun place => evaluateAt place [pointerAt offset, lengthAt offset]] [local_] := by
  refine Covers.of_code ?_
  exact (Stays.evaluate_cons (h.pointer.mono fun _ _ => trivial)
    (Stays.evaluate_one (h.length.mono fun _ _ => trivial))).congr (by simp)

/-- The loop stays inside where each of its turns does. -/
theorem PairAt.loop (h : PairAt mem place offset x) {α : Type} {vs : List α} (hlen : vs.length = x.2)
    {size n : Nat} {body : Body} {Q : α → Prop} (hturn : ∀ i u, vs[i]? = some u →
      Covers mem ⟨x.1 + i * size, size⟩ (Q u) body.code (body.results.take n)) :
    Covers mem place (∀ u ∈ vs, Q u) [loopText size n (pointerAt offset) (lengthAt offset) body] [local_] := by
  refine Covers.of_code ?_
  have hturns : ∀ i ∈ List.range x.2, Stays mem (∀ u, vs[i]? = some u → Q u) (do
      let pointer ← pointerAt offset place
      run body.code ⟨pointer + i * size, size⟩
      evaluateAt ⟨pointer + i * size, size⟩ (body.results.take n)
      let _ ← lengthAt offset place : Reading PUnit) fun _ => True := by
    intro i hi
    rw [List.mem_range, ← hlen] at hi
    have hu : vs[i]? = some vs[i] := List.getElem?_eq_getElem hi
    obtain ⟨f₁, f₂, hf, hcode, houts⟩ := hturn i _ hu
    have hend : Stays mem True (do let _ ← lengthAt offset place : Reading PUnit) fun _ => True :=
      (h.length.seq (Stays.pure (P := fun _ => True) trivial)).congr (by simp)
    have hfits : True ∧ f₁ ∧ f₂ ∧ True ↔ ∀ u, vs[i]? = some u → Q u := by
      rw [hu]
      simpa using hf
    refine Stays.congr ?_ hfits
    refine h.pointer.bind fun pointer hpointer => ?_
    subst hpointer
    exact hcode.seq (houts.seq hend)
  have hall : (∀ i ∈ List.range x.2, ∀ u, vs[i]? = some u → Q u) ↔ ∀ u ∈ vs, Q u := by
    constructor
    · intro hall u hu
      obtain ⟨i, hi, rfl⟩ := List.getElem_of_mem hu
      exact hall i (List.mem_range.mpr (hlen ▸ hi)) _ (List.getElem?_eq_getElem hi)
    · exact fun hall i _ u hu => hall u (List.mem_of_getElem? hu)
  have hloop : Stays mem (True ∧ True ∧ ∀ i ∈ List.range x.2, ∀ u, vs[i]? = some u → Q u)
      (loopText size n (pointerAt offset) (lengthAt offset) body place) fun _ => True := by
    refine h.length.seq (h.length.bind fun count hcount => ?_)
    subst hcount
    exact Stays.forM hturns
  exact hloop.congr (by rw [true_and, true_and, hall])

end

/-- A string, or a list whose elements are used as they are in memory. -/
theorem readOk_view (hp : T.p = 4) {t : Ty} {j : Instruction} (halign : T.W.align t = .pointer)
    (hsize : T.size t = 2 * T.p)
    (hread : ∀ offset, (readFromMemory T.W t basePointer offset : LGen T.W Unit) =
      readListFromMemory T.W t (emit T.W j) basePointer offset)
    (hview : ∀ ops, renderLift T.W j ops [] = view ops) (hops : j.operandsLen T.W = 2)
    (hblocks : j.blockResults = []) (hk : j.resultsLen T.W = 1)
    (hload : ∀ a w v, WitBindgen.load T t a w = .ok (v, w) →
      (∃ x, loadPair T a w = .ok (x, w)) ∧ ∀ size offset, Roomy T size t offset v) : ReadOk T t := by
  intro offset
  rw [hread]
  refine readListFromMemory_emission halign (Or.inr ⟨_, _, Prints.emit hops.symm hblocks (hview _) hk.symm, rfl, ?_⟩)
  intro mem w place v hmem hv hin
  obtain ⟨⟨x, hx⟩, hroomy⟩ := hload _ w v hv
  rw [hsize] at hin
  exact (pairAt hp hmem hin hx).view.congr (iff_of_true trivial (hroomy _ _))

theorem iterBasePointer_emission {W : WitParser} {f : Expr → LGen W Unit} {R : List Statement → List Expr → Prop}
    (h : Emission (f basePointer) [] R) :
    Emission (do emit W .iterBasePointer; let addr ← pop; f addr) [] R := by
  have hrun : ∀ s, (do emit W .iterBasePointer; let addr ← pop; f addr : LGen W Unit) s = f basePointer s := by
    intro s
    have hemit : emit W .iterBasePointer s = .ok ((), { s with
        stack := s.stack ++ [basePointer]
        bindgen := { s.bindgen with src := s.bindgen.src ++ [], blocks := s.bindgen.blocks } }) :=
      emit_printed (List.append_nil _).symm (List.append_nil _).symm rfl rfl rfl rfl
    refine (bind_ok hemit).trans ((bind_ok (pop_run rfl)).trans ?_)
    simp only [List.append_nil]
  have hsame : (do emit W .iterBasePointer; let addr ← pop; f addr : LGen W Unit) = f basePointer := funext hrun
  rw [hsame]
  exact h

/-- A block around what reads an entry, and the loop over it. -/
theorem loop_emission {W : WitParser} {body : LGen W Unit} {i : Instruction} {n : Nat} (size : ArchitectureSize)
    {Q R : List Statement → List Expr → Prop} {ops : List Expr} (h : Emission body [] Q)
    (hn : ∀ code outs, Q code outs → outs.length = n)
    (hrender : ∀ ops bodies, renderLift W i ops bodies = liftEntries size n ops bodies)
    (hlen : i.operandsLen W = 2) (hblocks : i.blockResults.length = 1) (hk : i.resultsLen W = 1)
    (hops : ops = [pointerAt offset, lengthAt offset])
    (hR : ∀ code outs, Q code outs →
      R [loopText (size.eval 4) n (pointerAt offset) (lengthAt offset) ⟨code, outs⟩] [local_]) :
    Emission (do block n body; emit W i) ops R := by
  subst hops
  rcases h with hfails | ⟨code, outs, hprints, hQ⟩
  · exact Or.inl (Fails.bind (Fails.block hfails))
  · have hgathers := hprints.block (hn code outs hQ)
    have hrendered : renderLift W i [pointerAt offset, lengthAt offset] [⟨code, outs⟩] =
        .ok ([loopText (size.eval 4) n (pointerAt offset) (lengthAt offset) ⟨code, outs⟩], [local_]) := by
      rw [hrender]
      exact if_pos (hn code outs hQ).ge
    exact Or.inr ⟨_, _, hgathers.emit hlen.symm hblocks.symm hrendered hk.symm, hR code outs hQ⟩

theorem slots_values {α : Type} {f : Nat → Exec Event α} {a size n : Nat} {vs : List α} {w : World Event}
    (h : List.Forall₂ (fun a u => f a w = .ok (u, w)) (slots a size n) vs) :
    vs.length = n ∧ ∀ i u, vs[i]? = some u → f (a + i * size) w = .ok (u, w) := by
  have hlen : vs.length = n := by rw [← h.length_eq, length_slots]
  refine ⟨hlen, fun i u hu => ?_⟩
  obtain ⟨hi, rfl⟩ := List.getElem?_eq_some_iff.mp hu
  have hslot : i < (slots a size n).length := by rwa [length_slots, ← hlen]
  have hall := List.forall₂_iff_get.mp h |>.2 i hslot hi
  simpa [slots] using hall

theorem readOk_list (hT : T.W.Lawful T.p) (hp : T.p = 4) {id : TypeId} {t : Ty} (ht : ReadOk T t) :
    ReadOk T (.list id t) := by
  have hsize : T.size (.list id t) = 2 * T.p := hT.size_list id t
  have hload : ∀ a w v, WitBindgen.load T (.list id t) a w = .ok (v, w) → ∃ x vs, loadPair T a w = .ok (x, w) ∧
      v = .list vs ∧ List.Forall₂ (fun a u => WitBindgen.load T t a w = .ok (u, w)) (slots x.1 (T.size t) x.2) vs := by
    intro a w v hv
    rw [WitBindgen.load] at hv
    obtain ⟨x, w₁, hx, hrest⟩ := run_bind_eq_ok hv
    obtain rfl := loadPair_readOnly T _ w x w₁ hx
    obtain ⟨vs, w₂, hvs, hlast⟩ := run_bind_eq_ok hrest
    cases hlast
    exact ⟨x, vs, hx, rfl, mapM_forall₂ (fun a _ => load_readOnly T t a) hvs⟩
  cases hcanon : (lifter T.W).isListCanonical t with
  | true =>
    refine readOk_view (j := .listCanonLift t id) hp (hT.align_list id t) hsize (fun offset => ?_) (fun _ => rfl)
      rfl rfl rfl fun a w v hv => ?_
    · rw [readFromMemory, lift, isListCanonical, pure_bind, if_pos hcanon]
    · obtain ⟨x, vs, hx, rfl, -⟩ := hload a w v hv
      exact ⟨⟨x, hx⟩, fun size offset => roomy_list.mpr fun hnot => by cases hcanon.symm.trans hnot⟩
  | false =>
    intro offset
    rw [readFromMemory, lift, isListCanonical, pure_bind, if_neg (ne_true_of_eq_false hcanon)]
    refine readListFromMemory_emission (hT.align_list id t) ?_
    refine loop_emission (i := .listLift t id) (n := 1) (T.W.size t)
      (iterBasePointer_emission (ht default)) (fun _ _ h => h.1) (fun _ _ => rfl) rfl rfl rfl rfl ?_
    rintro code outs ⟨hone, hcode⟩
    refine ⟨rfl, fun mem w place v hmem hv hin => ?_⟩
    obtain ⟨x, vs, hx, rfl, hvs⟩ := hload _ w v hv
    obtain ⟨hlen, hat⟩ := slots_values hvs
    rw [hsize] at hin
    have hstride : (T.W.size t).eval 4 = T.size t := by rw [Target.size, hp]
    rw [hstride]
    refine ((pairAt hp hmem hin hx).loop (Q := Roomy T (T.size t) t 0) hlen fun i u hu => ?_).congr ?_
    · have hturn := hcode mem w ⟨x.1 + i * T.size t, T.size t⟩ u hmem (by simpa using hat i u hu) (by simp)
      rw [ArchitectureSize.eval_default] at hturn
      rwa [List.take_of_length_le hone.le]
    · rw [roomy_list]
      exact ⟨fun h _ => h, fun h => h hcanon⟩

theorem readOk_map (hT : T.W.Lawful T.p) (hp : T.p = 4) {id : TypeId} {k t : Ty} (hk : ReadOk T k) (ht : ReadOk T t) :
    ReadOk T (.map id k t) := by
  intro offset
  have hsize : T.size (.map id k t) = 2 * T.p := hT.size_map id k t
  obtain ⟨valueOffset', hoffset, hvalue⟩ := valueOffset_ok hT k t
  obtain ⟨hkey, hend⟩ := valueOffset_spec hT k t
  have hvalueOffset : (valueOffset T.W k t : Gen (lifter T.W) ArchitectureSize) = pure valueOffset' := by
    rw [valueOffset, hoffset]
    rfl
  have hentry : ∀ a w e, loadEntry (T.valueOffset k t) (WitBindgen.load T k) (WitBindgen.load T t) a w = .ok (e, w) →
      WitBindgen.load T k a w = .ok (e.1, w) ∧ WitBindgen.load T t (a + T.valueOffset k t) w = .ok (e.2, w) := by
    intro a w e he
    obtain ⟨u₁, w₁, hu₁, hrest⟩ := run_bind_eq_ok he
    obtain rfl := load_readOnly T k a w u₁ w₁ hu₁
    obtain ⟨u₂, w₂, hu₂, hlast⟩ := run_bind_eq_ok hrest
    cases hlast
    exact ⟨hu₁, hu₂⟩
  have hload : ∀ a w v, WitBindgen.load T (.map id k t) a w = .ok (v, w) → ∃ x es, loadPair T a w = .ok (x, w) ∧
      v = .map es ∧ List.Forall₂ (fun a e => loadEntry (T.valueOffset k t) (WitBindgen.load T k) (WitBindgen.load T t) a w =
        .ok (e, w)) (slots x.1 (T.entrySize k t) x.2) es := by
    intro a w v hv
    rw [WitBindgen.load] at hv
    obtain ⟨x, w₁, hx, hrest⟩ := run_bind_eq_ok hv
    obtain rfl := loadPair_readOnly T _ w x w₁ hx
    obtain ⟨es, w₂, hes, hlast⟩ := run_bind_eq_ok hrest
    cases hlast
    exact ⟨x, es, hx, rfl, mapM_forall₂ (fun a _ =>
      (load_readOnly T k a).bind fun _ => (load_readOnly T t _).bind fun _ => .pure _) hes⟩
  rw [readFromMemory, lift, hvalueOffset, pure_bind]
  refine readListFromMemory_emission (hT.align_map id k t) ?_
  refine loop_emission (i := .mapLift k t id) (n := 2) (T.W.record [k, t]).size
    (Q := fun code outs => ∃ code₁ outs₁ code₂ outs₂, code = code₁ ++ code₂ ∧ outs = outs₁ ++ outs₂ ∧
      ReadsAs T k default code₁ outs₁ ∧ ReadsAs T t valueOffset' code₂ outs₂)
    (iterBasePointer_emission ?_) ?_ (fun _ _ => rfl) rfl rfl rfl rfl ?_
  · refine (hk default).bind fun code₁ outs₁ h₁ => ?_
    refine ((ht valueOffset').frame outs₁).mono ?_
    rintro code₂ _ ⟨outs₂, rfl, h₂⟩
    exact ⟨code₁, outs₁, code₂, outs₂, rfl, rfl, h₁, h₂⟩
  · rintro _ _ ⟨code₁, outs₁, code₂, outs₂, rfl, rfl, h₁, h₂⟩
    rw [List.length_append, h₁.1, h₂.1]
  · rintro _ _ ⟨code₁, outs₁, code₂, outs₂, rfl, rfl, h₁, h₂⟩
    refine ⟨rfl, fun mem w place v hmem hv hin => ?_⟩
    obtain ⟨x, es, hx, rfl, hes⟩ := hload _ w v hv
    obtain ⟨hlen, hat⟩ := slots_values hes
    rw [hsize] at hin
    have hstride : (T.W.record [k, t]).size.eval 4 = T.entrySize k t := by rw [Target.entrySize, hp]
    rw [hstride]
    refine ((pairAt hp hmem hin hx).loop (Q := fun e => Roomy T (T.entrySize k t) k 0 e.1 ∧
      Roomy T (T.entrySize k t) t (T.valueOffset k t) e.2) hlen fun i e he => ?_).congr roomy_map.symm
    obtain ⟨hfirst, hsecond⟩ := hentry _ w e (hat i e he)
    have hcover₁ := h₁.2 mem w ⟨x.1 + i * T.entrySize k t, T.entrySize k t⟩ e.1 hmem (by simpa using hfirst)
      (by rw [ArchitectureSize.eval_default, Nat.zero_add]; exact hkey.trans ((Nat.le_add_right _ _).trans hend))
    have hcover₂ := h₂.2 mem w ⟨x.1 + i * T.entrySize k t, T.entrySize k t⟩ e.2 hmem
      (by rw [← hvalue]; exact hsecond) (by rw [← hvalue]; exact hend)
    rw [ArchitectureSize.eval_default] at hcover₁
    rw [← hvalue] at hcover₂
    rw [List.take_of_length_le (by rw [List.length_append, h₁.1, h₂.1])]
    exact hcover₁.append hcover₂

/-! ### Records and tuples -/

theorem readsEach {items : List (ArchitectureSize × Ty)} (h : ∀ y ∈ items, ReadOk T y.2) :
    Emission (items.forM fun y => readFromMemory T.W y.2 basePointer (offset + y.1) : LGen T.W Unit) []
      fun code outs => outs.length = items.length ∧ ∀ mem w place vs, Shows w mem →
        List.Forall₂ (fun y u => WitBindgen.load T y.2 (place.start + offset.eval T.p + y.1.eval T.p) w = .ok (u, w))
          items vs →
        (∀ y ∈ items, offset.eval T.p + y.1.eval T.p + T.size y.2 ≤ place.size) →
          Covers mem place (∀ z ∈ items.zip vs, Roomy T place.size z.1.2 (offset.eval T.p + z.1.1.eval T.p) z.2)
            code outs := by
  induction items with
  | nil =>
    refine Or.inr ⟨[], [], Prints.pure, rfl, fun mem w place vs _ _ _ => ?_⟩
    exact Covers.nil.congr (by simp)
  | cons y items ih =>
    refine (h y List.mem_cons_self (offset + y.1)).bind fun code outs hy => ?_
    refine ((ih fun z hz => h z (List.mem_cons_of_mem _ hz)).frame outs).mono ?_
    rintro code' _ ⟨outs', rfl, hlen, hrest⟩
    refine ⟨by rw [List.length_append, hy.1, hlen, List.length_cons, Nat.add_comm], ?_⟩
    intro mem w place vs hmem hvs hin
    obtain ⟨u, us, hu, hus, rfl⟩ := List.forall₂_cons_left_iff.mp hvs
    have hfirst := hy.2 mem w place u hmem (by rwa [ArchitectureSize.eval_add, ← Nat.add_assoc])
      (by rw [ArchitectureSize.eval_add]; exact hin y List.mem_cons_self)
    rw [ArchitectureSize.eval_add] at hfirst
    have hothers := hrest mem w place us hmem hus fun z hz => hin z (List.mem_cons_of_mem _ hz)
    refine (hfirst.append hothers).congr ?_
    rw [List.zip_cons_cons, List.forall_mem_cons]

theorem constructs {ty : Ty} {types : List Ty} {i : Instruction} (h : FieldsLift ty types i) (W : WitParser) :
    (∀ ops : List Expr, ops.length = types.length → renderLift W i ops [] = construct ops) ∧
      i.operandsLen W = types.length ∧ i.blockResults = [] ∧ i.resultsLen W = 1 := by
  cases h with
  | record =>
    refine ⟨fun ops hlen => ?_, (List.length_map _).symm, rfl, rfl⟩
    rw [List.length_map] at hlen
    simp only [renderLift, List.take_of_length_le hlen.le]
  | tuple => exact ⟨fun _ _ => rfl, rfl, rfl, rfl⟩

theorem readOk_fields (hT : T.W.Lawful T.p) {ty : Ty} {types : List Ty} (hf : ty.fieldTypes = some types)
    (h : ∀ t ∈ types, ReadOk T t) : ReadOk T ty := by
  obtain ⟨i, hi, -, hread⟩ := lift_fields_eq (W := T.W) (B := lifter T.W) hf
  obtain ⟨hrender, hops, hblocks, hk⟩ := constructs hi T.W
  intro offset
  have hmem : ∀ y ∈ T.W.fieldOffsets types, ReadOk T y.2 := by
    intro y hy
    refine h y.2 ?_
    rw [← hT.fieldOffsets_types types]
    exact List.mem_map_of_mem hy
  have hfields : (forEachField T.W (types.map fun t => (t, readFromMemory T.W t)) basePointer offset : LGen T.W Unit) =
      (T.W.fieldOffsets types).forM fun y => readFromMemory T.W y.2 basePointer (offset + y.1) := by
    rw [forEachField_eq hT types (readFromMemory T.W)]
    simp [List.forM_map]
  rw [hread, hfields]
  refine (readsEach hmem).bind fun code outs ⟨hlen, hcode⟩ => ?_
  have hlength : outs.length = types.length := by
    rw [hlen, ← List.length_map (f := (·.2)), hT.fieldOffsets_types]
  refine Or.inr ⟨_, _, Prints.emit (hlength.trans hops.symm) hblocks (hrender outs hlength) hk.symm, rfl, ?_⟩
  intro mem w place v hmem hv hin
  rw [load_fields hf, loadFields_eq hT] at hv
  obtain ⟨vs, w₁, hvs, hlast⟩ := run_bind_eq_ok hv
  cases hlast
  have hall := mapM_forall₂ (fun y _ => load_readOnly T y.2 _) hvs
  rw [List.append_nil]
  refine ((hcode mem _ place vs hmem hall fun y hy => ?_).congr (roomy_fields hf).symm).construct
  have hwithin := hT.fieldOffsets_within types y hy
  rw [Target.size, hT.size_fields ty types hf] at hin
  rw [Target.size]
  omega

/-! ### Variants -/

/-- The block of a case. -/
def ArmReads (T : Target) (offset : ArchitectureSize) : Option Ty → Body → Prop
  | none, body => body = ⟨[], []⟩
  | some t, body => ReadsAs T t offset body.code body.results

theorem readVariantArm_gathers {arm : Option Ty} (h : ∀ t, arm = some t → ReadOk T t) :
    Fails (readVariantArm offset basePointer (arm.map fun t => (t, readFromMemory T.W t)) : LGen T.W Unit) ∨
      ∃ body, Gathers (readVariantArm offset basePointer (arm.map fun t => (t, readFromMemory T.W t)) : LGen T.W Unit)
        [body] ∧ ArmReads T offset arm body := by
  cases arm with
  | none => exact Or.inr ⟨_, Prints.block Prints.pure rfl, rfl⟩
  | some t =>
    rcases h t rfl offset with hfails | ⟨code, outs, hprints, hreads⟩
    · exact Or.inl (Fails.block hfails)
    · exact Or.inr ⟨_, hprints.block hreads.1, hreads⟩

theorem switchOn_cases {arms : List (Option Ty)} {bodies : List Body} {tag : Expr}
    (h : List.Forall₂ (ArmReads T offset) arms bodies) :
    switchOn (arms.map (·.isSome)) [tag] bodies = .ok ([switchText tag (bodies.map caseText)], [local_]) := by
  have hcases : ((arms.map (·.isSome)).zip bodies).mapM (fun (p, body) => caseOf p body) =
      (.ok (bodies.map caseText) : Except Panic (List Statement)) := by
    induction h with
    | nil => rfl
    | @cons arm body arms bodies harm _ ih =>
      have hcase : caseOf arm.isSome body = .ok (caseText body) := by
        refine if_pos ?_
        cases arm with
        | none =>
          obtain rfl : body = ⟨[], []⟩ := harm
          rfl
        | some t =>
          obtain ⟨r, hr⟩ := List.length_eq_one_iff.mp harm.1
          rw [hr]
          rfl
      rw [List.map_cons, List.zip_cons_cons, List.mapM_cons]
      dsimp only
      rw [hcase, ih]
      rfl
  show (((arms.map (·.isSome)).zip bodies).mapM (fun (p, body) => caseOf p body) >>= _) = _
  rw [hcases]
  rfl

theorem switches {ty : Ty} {arms : List (Option Ty)} {i : Instruction} (h : ArmsLift ty arms i) (W : WitParser) :
    (∀ ops bodies, renderLift W i ops bodies = switchOn (arms.map (·.isSome)) ops bodies) ∧
      i.operandsLen W = 1 ∧ i.resultsLen W = 1 := by
  cases h with
  | variant => exact ⟨fun ops bodies => by rw [List.map_map]; rfl, rfl, rfl⟩
  | option | result => exact ⟨fun _ _ => rfl, rfl, rfl⟩

theorem forall₂_at {α β : Type} {R : α → β → Prop} {xs : List α} {ys : List β} (h : List.Forall₂ R xs ys) {i : Nat}
    {x : α} (hx : xs[i]? = some x) : ∃ y, ys[i]? = some y ∧ R x y := by
  induction h generalizing i with
  | nil => exact nomatch hx
  | cons hxy _ ih =>
    cases i with
    | zero => exact ⟨_, rfl, Option.some.inj hx ▸ hxy⟩
    | succ i => exact ih hx

theorem load_arms_inv (T : Target) {ty : Ty} {arms : List (Option Ty)} (ha : ty.arms = some arms) {a : Nat} {v : Val}
    {w w' : World Event} (h : WitBindgen.load T ty a w = .ok (v, w')) : ∃ d arm payload,
      loadNat a (T.tagBytes ty) w = .ok (d, w) ∧ arms[d]? = some arm ∧
      loadPayload T (a + T.payloadOffset ty arms) arm w = .ok (payload, w) ∧ v = .variant d payload := by
  have hsame := load_readOnly T ty a w v w' h
  rw [load_payload ha] at h
  obtain ⟨d, w₁, hd, hrest⟩ := run_bind_eq_ok h
  obtain rfl := ReadOnly.loadNat _ _ w d w₁ hd
  cases harm : arms[d]? with
  | none =>
    rw [harm] at hrest
    exact nomatch hrest
  | some arm =>
    rw [harm, require_some, pure_bind] at hrest
    obtain ⟨payload, w₂, hpayload, hlast⟩ := run_bind_eq_ok hrest
    cases hlast
    subst hsame
    exact ⟨d, arm, payload, hd, harm, hpayload, rfl⟩

theorem loadPayload_some_inv {T : Target} {t : Ty} {a : Nat} {payload : Option Val} {w w' : World Event}
    (h : loadPayload T a (some t) w = .ok (payload, w')) :
    ∃ u, WitBindgen.load T t a w = .ok (u, w') ∧ payload = some u := by
  rw [loadPayload, map_eq_pure_bind] at h
  obtain ⟨u, w₁, hu, hlast⟩ := run_bind_eq_ok h
  cases hlast
  exact ⟨u, hu, rfl⟩

theorem readOk_arms (hT : T.W.Lawful T.p) (hp : T.p = 4) {ty : Ty} {arms : List (Option Ty)}
    (ha : ty.arms = some arms) (h : ∀ t, some t ∈ arms → ReadOk T t) : ReadOk T ty := by
  intro offset
  have htag : T.W.armTag ty ≠ .u64 := by
    cases ty with
    | variant id name cases => exact hT.tag_ne_u64 cases.length
    | _ => simp [WitParser.armTag]
  obtain ⟨i, hi, -, hread⟩ := lift_arms_eq (W := T.W) (B := lifter T.W) ha
  obtain ⟨hrender, hops, hk⟩ := switches hi T.W
  have hblocks := hi.lifting.2.2
  rw [hread, readVariantArmsFromMemory, armTypes_map]
  simp only [bind_assoc]
  refine Emission.of_prints (Prints.push basePointer) (Emission.of_prints (loadTag_prints htag) ?_)
  have hloop : ((arms.map fun o => o.map fun t => (t, readFromMemory T.W t)).forM
      (readVariantArm (offset + T.W.payloadOffset (T.W.armTag ty) arms) basePointer) : LGen T.W PUnit) =
      arms.forM fun arm => readVariantArm (offset + T.W.payloadOffset (T.W.armTag ty) arms) basePointer
        (arm.map fun t => (t, readFromMemory T.W t)) := by
    simp [List.forM_map]
  rw [hloop]
  rcases gathers_forM (Q := ArmReads T (offset + T.W.payloadOffset (T.W.armTag ty) arms)) fun arm harm =>
      readVariantArm_gathers fun t ht => h t (ht ▸ harm) with hfails | ⟨bodies, hgathers, hbodies⟩
  · exact Or.inl hfails.bind
  · have hrendered := (hrender [loaded 4 (T.W.armTag ty).bytes offset basePointer] bodies).trans (switchOn_cases hbodies)
    refine Or.inr ⟨_, _, hgathers.emit hops.symm (hbodies.length_eq.symm.trans hblocks.symm) hrendered hk.symm, rfl, ?_⟩
    intro mem w place v hmem hv hin
    obtain ⟨d, arm, payload, hd, harm, hpayload, rfl⟩ := load_arms_inv T ha hv
    obtain ⟨body, hbody, hreads⟩ := forall₂_at hbodies harm
    have hsize := hT.size_arms ty arms ha
    have hle := bytes_le htag
    have hvalue : peek mem (place.start + offset.eval 4) 4 % 256 ^ (T.W.armTag ty).bytes = d := by
      have hwide : ∀ addr, peek mem addr 4 % 256 ^ (T.W.armTag ty).bytes = peek mem addr (T.W.armTag ty).bytes := by
        intro addr
        conv_lhs => rw [← Nat.add_sub_cancel' hle]
        exact peek_mod _ _ _
      rw [hwide, ← hp]
      exact peek_of_loadNat hmem hd
    have hcase : (bodies.map caseText)[d]? = some (caseText body) := by rw [List.getElem?_map, hbody, Option.map_some]
    have hbodyStays : Stays mem (∀ t, arm = some t → ∀ u ∈ payload,
        Roomy T place.size t (offset.eval T.p + T.payloadOffset ty arms) u) (caseText body place) fun _ => True := by
      cases arm with
      | none =>
        obtain rfl : body = ⟨[], []⟩ := hreads
        exact Covers.nil.seq.congr (by simp)
      | some t =>
        obtain ⟨u, hu, rfl⟩ := loadPayload_some_inv hpayload
        have hin' := hT.payload_within ty arms t ha (List.mem_of_getElem? harm)
        have hcover := hreads.2 mem w place u hmem
          (by rw [ArchitectureSize.eval_add, ← Nat.add_assoc]; exact hu)
          (by rw [ArchitectureSize.eval_add]; rw [Target.size] at hin ⊢; omega)
        rw [ArchitectureSize.eval_add] at hcover
        rw [caseText, List.take_of_length_le hreads.1.le]
        exact hcover.seq.congr (by simp [Target.payloadOffset])
    refine Covers.of_code ?_
    have htagStays : Stays mem _ (loaded 4 (T.W.armTag ty).bytes offset basePointer place) (· = d) := stays_loaded hvalue
    have hswitch : Stays mem (offset.eval 4 + 4 ≤ place.size ∧ ∀ t, arm = some t → ∀ u ∈ payload,
        Roomy T place.size t (offset.eval T.p + T.payloadOffset ty arms) u)
        (switchText (loaded 4 (T.W.armTag ty).bytes offset basePointer) (bodies.map caseText) place) fun _ => True := by
      refine htagStays.bind fun t ht => ?_
      subst ht
      rw [hcase]
      exact hbodyStays
    refine hswitch.congr ?_
    rw [roomy_arms ha, harm]
    simp only [Option.some.injEq]
    rw [Target.size] at hin
    rw [Target.tagBytes]
    rw [hp] at hin hsize ⊢
    exact and_congr_left' (by omega)

/-! ## Every type -/

theorem readOk (hT : T.W.Lawful T.p) (hp : T.p = 4) (ty : Ty) : ReadOk T ty := by
  induction ty using Ty.ind with
  | prim q => exact readOk_prim hT hp q
  | string =>
    refine readOk_view (j := .stringLift) hp hT.align_string hT.size_string
      (fun offset => by rw [readFromMemory, lift]) (fun _ => rfl) rfl rfl rfl fun a w v hv => ?_
    rw [WitBindgen.load] at hv
    obtain ⟨x, w₁, hx, -⟩ := run_bind_eq_ok hv
    obtain rfl := loadPair_readOnly T _ w x w₁ hx
    exact ⟨⟨x, hx⟩, fun _ _ => roomy_plain (Or.inl rfl)⟩
  | errorContext =>
    intro offset
    rw [readFromMemory, lift]
    exact Or.inl (Fails.of_bind fun _ => Fails.of_bind fun _ => Fails.emit fun _ _ => ⟨_, rfl⟩)
  | type id t ih =>
    intro offset
    rw [readFromMemory]
    refine (ih offset).mono fun code outs h => ⟨h.1, fun mem w place v hmem hv hin => ?_⟩
    rw [WitBindgen.load] at hv
    rw [Target.size, hT.size_type] at hin
    exact (h.2 mem w place v hmem hv hin).congr roomy_named.symm
  | list id t ih => exact readOk_list hT hp ih
  | map id k v ihk ihv => exact readOk_map hT hp ihk ihv
  | fixedLengthList id t n ih =>
    intro offset
    rw [readFromMemory]
    exact Or.inl (Fails.of_bind fun _ => Fails.of_bind fun _ => Fails.emit fun _ _ => ⟨_, rfl⟩)
  | fields ty types hf ih => exact readOk_fields hT hf ih
  | flags id name names => exact readOk_flags hT hp id name names
  | arms ty arms ha ih => exact readOk_arms hT hp ha ih
  | enum id name cases => exact readOk_enum hT hp id name cases
  | handle id h name =>
    exact readOk_handle (j := .handleLift h name id) hp (hT.size_handle id h name)
      (fun _ _ _ => roomy_plain (Or.inr (Or.inl ⟨id, h, name, rfl⟩)))
      (fun offset => by rw [readFromMemory, lift]) (fun _ => rfl) rfl rfl rfl
  | future id t =>
    exact readOk_handle (j := .futureLift t id) hp (hT.size_future id t)
      (fun _ _ _ => roomy_plain (Or.inr (Or.inr (Or.inl ⟨id, t, rfl⟩))))
      (fun offset => by rw [readFromMemory, lift]) (fun _ => rfl) rfl rfl rfl
  | stream id t =>
    exact readOk_handle (j := .streamLift t id) hp (hT.size_stream id t)
      (fun _ _ _ => roomy_plain (Or.inr (Or.inr (Or.inr ⟨id, t, rfl⟩))))
      (fun offset => by rw [readFromMemory, lift]) (fun _ => rfl) rfl rfl rfl
  | resource id =>
    intro offset
    rw [readFromMemory]
    exact Or.inl fun _ => ⟨_, rfl⟩
  | unknown id =>
    intro offset
    rw [readFromMemory]
    exact Or.inl fun _ => ⟨_, rfl⟩

/-- The accesses of code that reads a value in `place`. -/
def accesses (code : List Statement) (results : List Expr) (place : Place) (mem : Nat → UInt8) : List Access :=
  ((do run code place; evaluateAt place results : Reading PUnit) mem).1

/-- What `lift_from_memory` prints stays in the place of the value, and of each element that it
reads on the way, exactly if every piece of one or two bytes has four bytes from its start on in
the place it belongs to. -/
theorem lift_inside_iff (hT : T.W.Lawful T.p) (hp : T.p = 4) {t : Ty} {s s' : Lifter} {result : Expr}
    (h : Abi.liftFromMemory T.W (B := lifter T.W) basePointer t s = .ok (result, s')) {w w' : World Event}
    {mem : Nat → UInt8} (hmem : Shows w mem) {a : Nat} {v : Val} (hv : WitBindgen.load T t a w = .ok (v, w')) :
    ∃ code, s'.src = s.src ++ code ∧
      ((∀ x ∈ accesses code [result] ⟨a, T.size t⟩ mem, x.Inside) ↔ Roomy T (T.size t) t 0 v) := by
  obtain rfl := load_readOnly T t a w v w' hv
  rcases readOk hT hp t default with hfails | ⟨code, outs, hprints, hone, hreads⟩
  · obtain ⟨e, he⟩ := hfails (GenState.new s)
    rw [Abi.liftFromMemory, he] at h
    exact nomatch h
  · obtain ⟨out, rfl⟩ := List.length_eq_one_iff.mp hone
    have hrun := hprints (GenState.new s) [] rfl
    rw [Abi.liftFromMemory, hrun] at h
    cases h
    refine ⟨code, rfl, ?_⟩
    have hcover := hreads mem w' ⟨a, T.size t⟩ v hmem
      (by rwa [ArchitectureSize.eval_default]) (by rw [ArchitectureSize.eval_default, Nat.zero_add])
    rw [ArchitectureSize.eval_default] at hcover
    exact hcover.seq.iff

end

/-! ### The last byte of an allocation -/

/-- Eight bytes. -/
def area : World Event where
  mem := fun _ => some 1
  live := {⟨0, 8, 1⟩}
  freed := []
  log := []

def liftBumped (t : Ty) : Except Panic (Expr × Lifter) :=
  Abi.liftFromMemory bumpMachine.W (B := lifter bumpMachine.W) basePointer t ⟨[], [], []⟩

theorem lift_inside_word : ∃ code result s', liftBumped (.prim .u32) = .ok (result, s') ∧ s'.src = code ∧
    ((∀ x ∈ accesses code [result] ⟨4, bumpMachine.size (.prim .u32)⟩ (fun _ => 1), x.Inside) ↔
      Roomy bumpMachine.toTarget (bumpMachine.size (.prim .u32)) (.prim .u32) 0 (.u32 0x01010101)) := by
  have hmem : Shows area fun _ => 1 := fun x b h => Option.some.inj h
  have hv : WitBindgen.load bumpMachine.toTarget (.prim .u32) 4 area = .ok (.u32 0x01010101, area) := by
    rw [WitBindgen.load]
    rfl
  have h : ∃ result s', liftBumped (.prim .u32) = .ok (result, s') := by
    rw [liftBumped, Abi.liftFromMemory, readFromMemory, lift]
    exact ⟨_, _, rfl⟩
  obtain ⟨result, s', h⟩ := h
  obtain ⟨code, hcode, hiff⟩ := lift_inside_iff bumpMachine_lawful rfl h hmem hv
  exact ⟨code, result, s', h, hcode, hiff⟩

/-- A load of four bytes for a `bool` in the last byte. -/
theorem bool_at_end : ∃ result s', liftBumped (.prim .bool) = .ok (result, s') ∧
    WitBindgen.load bumpMachine.toTarget (.prim .bool) 7 area = .ok (.bool true, area) ∧
    bumpMachine.size (.prim .bool) = 1 ∧
    ∃ x ∈ accesses s'.src [result] ⟨7, 1⟩ (fun _ => 1), x.addr = 7 ∧ x.width = 4 ∧ ¬x.Inside := by
  have hv : WitBindgen.load bumpMachine.toTarget (.prim .bool) 7 area = .ok (.bool true, area) := by
    rw [WitBindgen.load]
    rfl
  have hsize : bumpMachine.size (.prim .bool) = 1 := bumpMachine_lawful.size_prim .bool
  rw [liftBumped, Abi.liftFromMemory, readFromMemory, lift]
  refine ⟨_, _, rfl, hv, hsize, ?_⟩
  exact ⟨⟨⟨7, 1⟩, 7, 4⟩, List.mem_singleton_self _, rfl, rfl, fun hin => absurd hin.2 (by decide)⟩

end WitBindgen.Go.Lift
