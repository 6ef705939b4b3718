import WitBindgen.Abi.Call
import WitBindgen.Abi.Schemes

/-!
# Which instructions an emitter uses

`lower` and `writeToMemory` emit lowering instructions only, and those that make room for
a list, a string or a map only where the type has one; `lift` and `readFromMemory` emit
lifting instructions only. What a backend keeps while it is fed such instructions, the
emitters keep; the blocks that no instruction has taken yet are counted.
-/

namespace WitBindgen

namespace Instruction

/-- The instructions that take a value apart or store one. -/
def lowering : Instruction → Bool
  | i32Const _ | bitcasts _ | constZero _
  | i32Store _ | i32Store8 _ | i32Store16 _ | i64Store _ | f32Store _ | f64Store _
  | pointerStore _ | lengthStore _
  | i32FromChar | i64FromU64 | i64FromS64 | i32FromU32 | i32FromS32 | i32FromU16
  | i32FromS16 | i32FromU8 | i32FromS8 | coreF32FromF32 | coreF64FromF64 | i32FromBool
  | listCanonLower _ _ | stringLower _ | listLower _ _ | mapLower _ _ _
  | fixedLengthListLower _ _ _ | fixedLengthListLowerToMemory _ _ _
  | iterElem _ | iterMapKey _ | iterMapValue _ | iterBasePointer
  | recordLower _ _ _ | handleLower _ _ _ | futureLower _ _ | streamLower _ _
  | errorContextLower | tupleLower _ _ | flagsLower _ _ _
  | variantPayloadName | variantLower _ _ _ _ | enumLower _ _ _ | optionLower _ _ _
  | resultLower _ _ _ _ => true
  | _ => false

/-- The instructions that load a value or put one together. -/
def lifting : Instruction → Bool
  | bitcasts _
  | i32Load _ | i32Load8U _ | i32Load8S _ | i32Load16U _ | i32Load16S _ | i64Load _
  | f32Load _ | f64Load _ | pointerLoad _ | lengthLoad _
  | s8FromI32 | u8FromI32 | s16FromI32 | u16FromI32 | s32FromI32 | u32FromI32
  | s64FromI64 | u64FromI64 | charFromI32 | f32FromCoreF32 | f64FromCoreF64 | boolFromI32
  | listCanonLift _ _ | stringLift | listLift _ _ | mapLift _ _ _
  | fixedLengthListLift _ _ _ | fixedLengthListLiftFromMemory _ _ _ | iterBasePointer
  | recordLift _ _ _ | handleLift _ _ _ | futureLift _ _ | streamLift _ _
  | errorContextLift | tupleLift _ _ | flagsLift _ _ _
  | variantLift _ _ _ | enumLift _ _ _ | optionLift _ _ | resultLift _ _ _ => true
  | _ => false

/-- The instructions that put elements in a buffer of their own. -/
def allocates : Instruction → Bool
  | listCanonLower _ _ | stringLower _ | listLower _ _ | mapLower _ _ _ => true
  | _ => false

/-- The instructions that read memory. -/
def reads : Instruction → Bool
  | i32Load _ | i32Load8U _ | i32Load8S _ | i32Load16U _ | i32Load16S _ | i64Load _
  | f32Load _ | f64Load _ | pointerLoad _ | lengthLoad _
  | listCanonLift _ _ | stringLift | listLift _ _ | mapLift _ _ _
  | fixedLengthListLiftFromMemory _ _ _ => true
  | _ => false

/-- The instructions that load a word. -/
def loads : Instruction → Bool
  | i32Load _ | i32Load8U _ | i32Load8S _ | i32Load16U _ | i32Load16S _ | i64Load _
  | f32Load _ | f64Load _ | pointerLoad _ | lengthLoad _ => true
  | _ => false

/-- The instructions that put a variant, an option or a result together. -/
def liftsArms : Instruction → Bool
  | variantLift _ _ _ | optionLift _ _ | resultLift _ _ _ => true
  | _ => false

/-- The instructions that give memory or a handle back. -/
def frees : Instruction → Bool
  | guestDeallocate _ _ | guestDeallocateString | guestDeallocateList _
  | guestDeallocateMap _ _ | guestDeallocateVariant _ | dropHandle _ => true
  | _ => false

/-- Where the instruction takes one block for each case, there are cases. -/
def armed : Instruction → Bool
  | variantLift cases _ _ => !cases.isEmpty
  | _ => true

theorem frees_of_lowering {i : Instruction} (h : i.lowering) : i.frees = false := by
  cases i <;> first | rfl | cases h

theorem reads_of_lowering {i : Instruction} (h : i.lowering) : i.reads = false := by
  cases i <;> first | rfl | cases h

theorem lifting_of_liftsArms {i : Instruction} (h : i.liftsArms) : i.lifting := by
  cases i <;> first | rfl | cases h

theorem lifting_of_loads {i : Instruction} (h : i.loads) : i.lifting := by
  cases i <;> first | rfl | cases h

theorem armed_of_loads {i : Instruction} (h : i.loads) : i.armed := by
  cases i <;> first | rfl | cases h

theorem blockResults_of_loads {i : Instruction} (h : i.loads) : i.blockResults.length = 0 := by
  cases i <;> first | rfl | cases h

theorem allocates_of_lifting {i : Instruction} (h : i.lifting) : i.allocates = false := by
  cases i <;> first | rfl | cases h

theorem frees_of_lifting {i : Instruction} (h : i.lifting) : i.frees = false := by
  cases i <;> first | rfl | cases h

end Instruction

theorem FieldsLower.lowering {ty : Ty} {types : List Ty} {i : Instruction} (h : FieldsLower ty types i) :
    i.lowering ∧ i.allocates = false ∧ i.blockResults.length = 0 := by
  cases h <;> exact ⟨rfl, rfl, rfl⟩

theorem FieldsLift.lifting {ty : Ty} {types : List Ty} {i : Instruction} (h : FieldsLift ty types i) :
    i.lifting ∧ i.loads = false ∧ i.armed ∧ i.blockResults.length = 0 := by
  cases h <;> exact ⟨rfl, rfl, rfl, rfl⟩

theorem ArmsLower.lowering {ty : Ty} {arms : List (Option Ty)} {i : List WasmType → Instruction}
    (h : ArmsLower ty arms i) (results : List WasmType) : (i results).lowering ∧
      (i results).allocates = false ∧ (i results).blockResults.length = arms.length := by
  cases h with
  | variant => exact ⟨rfl, rfl, by simp [Instruction.blockResults]⟩
  | option | result => exact ⟨rfl, rfl, rfl⟩

theorem ArmsLift.lifting {ty : Ty} {arms : List (Option Ty)} {i : Instruction} (h : ArmsLift ty arms i) :
    i.liftsArms ∧ (arms ≠ [] → i.armed) ∧ i.blockResults.length = arms.length := by
  cases h with
  | variant =>
    refine ⟨rfl, fun hne => ?_, by simp [Instruction.blockResults]⟩
    simpa [Instruction.armed] using hne
  | option | result => exact ⟨rfl, fun _ => rfl, rfl⟩

/-- A string, a list or a map is reached outside a future's or stream's payload. -/
inductive Ty.HasList : Ty → Prop where
  | string : HasList .string
  | list {id t} : HasList (.list id t)
  | map {id k v} : HasList (.map id k v)
  | type {id t} : HasList t → HasList (.type id t)
  | fixedLengthList {id t n} : HasList t → HasList (.fixedLengthList id t n)
  | fields {ty types t} : ty.fieldTypes = some types → t ∈ types → HasList t → HasList ty
  | arms {ty arms t} : ty.arms = some arms → some t ∈ arms → HasList t → HasList ty

/-- A handle is reached outside a future's or stream's payload. -/
inductive Ty.HasHandle (id : TypeId) (h : Handle) (name : String) : Ty → Prop where
  | handle : HasHandle id h name (.handle id h name)
  | type {i t} : HasHandle id h name t → HasHandle id h name (.type i t)
  | list {i t} : HasHandle id h name t → HasHandle id h name (.list i t)
  | key {i k v} : HasHandle id h name k → HasHandle id h name (.map i k v)
  | value {i k v} : HasHandle id h name v → HasHandle id h name (.map i k v)
  | fixedLengthList {i t n} : HasHandle id h name t → HasHandle id h name (.fixedLengthList i t n)
  | fields {ty types t} : ty.fieldTypes = some types → t ∈ types → HasHandle id h name t →
      HasHandle id h name ty
  | arms {ty arms t} : ty.arms = some arms → some t ∈ arms → HasHandle id h name t →
      HasHandle id h name ty

theorem anyOk_of_mem {xs : List (Except Panic Bool)} {x : Except Panic Bool} {b : Bool}
    (h : anyOk xs = .ok b) (hx : x ∈ xs) (htrue : ∀ b', x = .ok b' → b' = true) : b = true := by
  induction xs with
  | nil => cases hx
  | cons y xs ih =>
    cases y with
    | error e => cases h
    | ok v =>
      cases v with
      | true => cases h; rfl
      | false =>
        rcases List.mem_cons.mp hx with rfl | hx
        · cases htrue _ rfl
        · exact ih h hx

theorem needsDeallocate_fields {what : Deallocate} {ty : Ty} {types : List Ty} (h : ty.fieldTypes = some types) :
    needsDeallocate what ty = anyOk (types.map (needsDeallocate what)) := by
  cases h using Ty.fields_cases with
  | record id name fields =>
    rw [needsDeallocate, List.map_map]
    rfl
  | tuple id types' =>
    rw [needsDeallocate]

theorem needsDeallocate_arms {what : Deallocate} {ty : Ty} {arms : List (Option Ty)} (h : ty.arms = some arms) :
    needsDeallocate what ty =
      anyOk (arms.map fun o => o.elim (.ok false) (needsDeallocate what)) := by
  cases h using Ty.arms_cases with
  | variant id name cases =>
    rw [needsDeallocate]
    congr 1
    exact Ty.elim_cases ..
  | option id t =>
    rw [needsDeallocate]
    show _ = anyOk [.ok false, needsDeallocate what t]
    rw [anyOk]
    cases needsDeallocate what t with
    | error e => rfl
    | ok b => cases b <;> rfl
  | result id ok err =>
    cases ok <;> cases err <;> · rw [needsDeallocate]; rfl

/-- Whatever has a list in it has something to deallocate. -/
theorem needsDeallocate_of_hasList {what : Deallocate} {ty : Ty} (h : ty.HasList) {b : Bool}
    (hneeds : needsDeallocate what ty = .ok b) : b = true := by
  induction h generalizing b with
  | string | list | map => rw [needsDeallocate] at hneeds; cases hneeds; rfl
  | type _ ih | fixedLengthList _ ih => rw [needsDeallocate] at hneeds; exact ih hneeds
  | fields hf ht _ ih =>
    rw [needsDeallocate_fields hf] at hneeds
    exact anyOk_of_mem hneeds (List.mem_map_of_mem ht) fun _ => ih
  | arms ha ht _ ih =>
    rw [needsDeallocate_arms ha] at hneeds
    exact anyOk_of_mem hneeds (List.mem_map.mpr ⟨_, ht, rfl⟩) fun _ => ih

namespace Generator

variable {W : WitParser} {B : Bindgen} {α β : Type}

/-! ## Keeping -/

/-- What holds of the backend (`I`, given how many blocks are pending at each level, innermost
first) with `j` blocks pending, and of every operand on the stack (`Q`), holds after `g` with
`k` blocks pending, and what `g` returns satisfies `R`. -/
def Keeps (I : List Nat → B.State → Prop) (Q : B.Operand → Prop) (R : α → Prop) (j k : Nat)
    (g : Gen B α) : Prop :=
  ∀ s x s' n l, g s = .ok (x, s') → I ((n + j) :: l) s.bindgen → (∀ o ∈ s.stack, Q o) →
    I ((n + k) :: l) s'.bindgen ∧ (∀ o ∈ s'.stack, Q o) ∧ R x

/-- A step that finishes as many blocks as it uses up, and of which only the effect matters. -/
abbrev Steady (I : List Nat → B.State → Prop) (Q : B.Operand → Prop) (g : Gen B α) : Prop :=
  Keeps I Q (fun _ => True) 0 0 g

/-- What the backend keeps, of itself and of the operands, as long as the instructions it is
given satisfy `P`. -/
structure Stable (B : Bindgen) (P : Instruction → Prop) (I : List Nat → B.State → Prop)
    (Q : B.Operand → Prop) : Prop where
  emit : ∀ {i ops s rs s' n l}, P i → (∀ o ∈ ops, Q o) → B.emit i ops s = .ok (rs, s') →
    I ((n + i.blockResults.length) :: l) s → I (n :: l) s' ∧ ∀ r ∈ rs, Q r
  returnPointer : ∀ {size align s x s' l}, B.returnPointer size align s = .ok (x, s') → I l s →
    I l s' ∧ Q x
  pushBlock : ∀ {s s' n l}, B.pushBlock s = .ok s' → I (n :: l) s → I (0 :: n :: l) s'
  finishBlock : ∀ {ops s s' n l}, (∀ o ∈ ops, Q o) → B.finishBlock ops s = .ok s' →
    I (0 :: n :: l) s → I ((n + 1) :: l) s'

section
variable {I : List Nat → B.State → Prop} {Q : B.Operand → Prop} {R : α → Prop} {R' : β → Prop}
  {j k m : Nat}

theorem bind_inv {g : Gen B α} {f : α → Gen B β} {s s' : GenState B} {y : β}
    (h : (g >>= f) s = .ok (y, s')) : ∃ x s₁, g s = .ok (x, s₁) ∧ f x s₁ = .ok (y, s') := by
  change (g s >>= fun p => f p.1 p.2) = _ at h
  cases hg : g s with
  | error e => rw [hg] at h; cases h
  | ok p => rw [hg] at h; exact ⟨p.1, p.2, rfl, h⟩

/-- What `emit` does, once it has succeeded. -/
theorem emit_inv {i : Instruction} {s s' : GenState B} (h : emit W i s = .ok ((), s')) :
    ∃ below ops results, s.stack = below ++ ops ∧ ops.length = i.operandsLen W ∧
      B.emit i ops s.bindgen = .ok (results, s'.bindgen) ∧ results.length = i.resultsLen W ∧
      s' = { s with bindgen := s'.bindgen, stack := below ++ results } := by
  unfold emit at h
  dsimp only at h
  split at h
  next hle =>
    split at h
    · cases h
    · next results bindgen hemit =>
        split at h <;> cases h
        next hlen =>
          refine ⟨_, _, results, (List.take_append_drop _ _).symm, ?_, hemit, hlen, rfl⟩
          rw [List.length_drop, Nat.sub_sub_self hle]
  · cases h

namespace Keeps

/-- Blocks that were pending before stay pending. -/
theorem frame {g : Gen B α} (h : Keeps I Q R j k g) (i : Nat) : Keeps I Q R (i + j) (i + k) g := by
  intro s x s' n l hg hs hstack
  rw [← Nat.add_assoc] at hs ⊢
  exact h s x s' (n + i) l hg hs hstack

theorem pure {x : α} (h : R x) : Keeps I Q R j j (Pure.pure x : Gen B α) := by
  rintro s y s' n l ⟨⟩ hs hstack
  exact ⟨hs, hstack, h⟩

theorem done : Keeps I Q (fun _ => True) j j (Pure.pure () : Gen B Unit) := pure trivial

theorem bind {g : Gen B α} {f : α → Gen B β} (hg : Keeps I Q R j k g)
    (hf : ∀ x, R x → Keeps I Q R' k m (f x)) : Keeps I Q R' j m (g >>= f) := by
  intro s y s' n l h hs hstack
  obtain ⟨x, s₁, h₁, h₂⟩ := bind_inv h
  obtain ⟨hs₁, hstack₁, hx⟩ := hg s x s₁ n l h₁ hs hstack
  exact hf x hx s₁ y s' n l h₂ hs₁ hstack₁

theorem and_then {g : Gen B α} {f : α → Gen B β} (hg : Keeps I Q (fun _ => True) j k g)
    (hf : ∀ x, Keeps I Q R' k m (f x)) : Keeps I Q R' j m (g >>= f) := hg.bind fun x _ => hf x

theorem ite {c : Prop} [Decidable c] {g g' : Gen B α} (h : Keeps I Q R j k g)
    (h' : Keeps I Q R j k g') : Keeps I Q R j k (if c then g else g') := by
  split
  · exact h
  · exact h'

/-- A step that touches neither the backend nor the stack. -/
theorem of_frame {g : Gen B α}
    (h : ∀ s x s', g s = .ok (x, s') → s'.bindgen = s.bindgen ∧ s'.stack = s.stack) :
    Keeps I Q (fun _ => True) j j g := by
  intro s x s' n l hg hs hstack
  obtain ⟨hb, hst⟩ := h s x s' hg
  rw [hb, hst]
  exact ⟨hs, hstack, trivial⟩

theorem panic (p : Panic) : Keeps I Q R j k (Generator.panic p : Gen B α) := by
  rintro s x s' n l ⟨⟩

theorem assert (b : Bool) : Keeps I Q (fun _ => True) j j (Generator.assert b : Gen B Unit) := by
  cases b with
  | true => exact done
  | false => exact panic _

theorem orPanic (p : Panic) (o : Option α) :
    Keeps I Q (fun _ => True) j j (Generator.orPanic p o : Gen B α) := by
  cases o with
  | none => exact panic p
  | some x => exact pure trivial

theorem push {x : B.Operand} (h : Q x) : Keeps I Q (fun _ => True) j j (Generator.push x) := by
  rintro s y s' n l ⟨⟩ hs hstack
  refine ⟨hs, fun o ho => ?_, trivial⟩
  rcases List.mem_append.mp ho with ho | ho
  · exact hstack o ho
  · rw [List.mem_singleton.mp ho]
    exact h

theorem extend {xs : List B.Operand} (h : ∀ x ∈ xs, Q x) :
    Keeps I Q (fun _ => True) j j (Generator.extend xs) := by
  rintro s y s' n l ⟨⟩ hs hstack
  exact ⟨hs, fun o ho => (List.mem_append.mp ho).elim (hstack o) (h o), trivial⟩

theorem pop : Keeps I Q Q j j (Generator.pop : Gen B B.Operand) := by
  intro s x s' n l h hs hstack
  unfold Generator.pop at h
  split at h <;> cases h
  next hlast =>
    exact ⟨hs, fun o ho => hstack o (List.dropLast_subset _ ho),
      hstack _ (List.mem_of_getLast? hlast)⟩

theorem drain (i : Nat) :
    Keeps I Q (fun xs => ∀ x ∈ xs, Q x) j j (Generator.drain i : Gen B (List B.Operand)) := by
  intro s x s' n l h hs hstack
  unfold Generator.drain at h
  split at h <;> cases h
  exact ⟨hs, fun o ho => hstack o (List.mem_of_mem_take ho),
    fun o ho => hstack o (List.mem_of_mem_drop ho)⟩

theorem setRealloc (r : Option Realloc) :
    Keeps I Q (fun _ => True) j j (Generator.setRealloc r : Gen B Unit) :=
  of_frame fun _ _ _ h => by cases h; exact ⟨rfl, rfl⟩

theorem setReturnPointer (p : Option B.Operand) :
    Keeps I Q (fun _ => True) j j (Generator.setReturnPointer p : Gen B Unit) :=
  of_frame fun _ _ _ h => by cases h; exact ⟨rfl, rfl⟩

theorem takeReturnPointer :
    Keeps I Q (fun _ => True) j j (Generator.takeReturnPointer : Gen B B.Operand) := by
  refine of_frame fun s x s' h => ?_
  unfold Generator.takeReturnPointer at h
  split at h <;> cases h
  exact ⟨rfl, rfl⟩

theorem listRealloc :
    Keeps I Q (fun _ => True) j j (Generator.listRealloc : Gen B (Option String)) := by
  refine of_frame fun s x s' h => ?_
  unfold Generator.listRealloc at h
  split at h <;> cases h <;> exact ⟨rfl, rfl⟩

theorem stackLen : Keeps I Q (fun _ => True) j j (Generator.stackLen : Gen B Nat) :=
  of_frame fun _ _ _ h => by cases h; exact ⟨rfl, rfl⟩

theorem flatTypes (ty : Ty) :
    Keeps I Q (fun _ => True) j j (Generator.flatTypes W ty : Gen B (List WasmType)) :=
  orPanic _ _

theorem valueOffset (key value : Ty) :
    Keeps I Q (fun _ => True) j j (Generator.valueOffset W key value : Gen B _) := orPanic _ _

theorem slice (i : Nat) {xs : List B.Operand} (h : ∀ x ∈ xs, Q x) :
    Keeps I Q (fun ys => ∀ y ∈ ys, Q y) j j (Generator.slice i xs) :=
  ite (pure fun y hy => h y (List.mem_of_mem_take hy)) (panic _)

theorem forM {ι : Type} {xs : List ι} {f : ι → Gen B PUnit} (h : ∀ x ∈ xs, Steady I Q (f x)) :
    Steady I Q (xs.forM f) := by
  induction xs with
  | nil => exact pure trivial
  | cons x xs ih =>
    exact (h x List.mem_cons_self).and_then fun _ =>
      ih fun y hy => h y (List.mem_cons_of_mem _ hy)

/-- A loop that finishes one block on each turn. -/
theorem forM_blocks {ι : Type} {xs : List ι} {f : ι → Gen B PUnit}
    (h : ∀ x ∈ xs, Keeps I Q (fun _ => True) 0 1 (f x)) :
    Keeps I Q (fun _ => True) 0 xs.length (xs.forM f) := by
  induction xs with
  | nil => exact pure trivial
  | cons x xs ih =>
    have hrest := (ih fun y hy => h y (List.mem_cons_of_mem _ hy)).frame 1
    rw [Nat.add_comm 1 xs.length] at hrest
    exact (h x List.mem_cons_self).and_then fun _ => hrest

section
variable {P : Instruction → Prop}

theorem emit (hI : Stable B P I Q) {i : Instruction} (hi : P i) (hk : i.blockResults.length = k) :
    Keeps I Q (fun _ => True) k 0 (Generator.emit W i : Gen B Unit) := by
  intro s x s' n l h hs hstack
  obtain ⟨below, ops, results, hbelow, -, hemit, -, hs'⟩ := emit_inv h
  rw [hbelow] at hstack
  obtain ⟨hbelow, hops⟩ := List.forall_mem_append.mp hstack
  rw [← hk] at hs
  obtain ⟨hbindgen, hresults⟩ := hI.emit hi hops hemit hs
  rw [hs']
  exact ⟨hbindgen, List.forall_mem_append.mpr ⟨hbelow, hresults⟩, trivial⟩

theorem returnPointer (hI : Stable B P I Q) (size : ArchitectureSize) (align : Alignment) :
    Keeps I Q Q j j (Generator.returnPointer size align : Gen B B.Operand) := by
  intro s x s' n l h hs hstack
  unfold Generator.returnPointer at h
  split at h
  · cases h
  · next p bindgen hret =>
      cases h
      obtain ⟨hs', hx⟩ := hI.returnPointer hret hs
      exact ⟨hs', hstack, hx⟩

theorem block (hI : Stable B P I Q) (size : Nat) {body : Gen B Unit} (h : Steady I Q body) :
    Keeps I Q (fun _ => True) 0 1 (Generator.block size body) := by
  intro s x s' n l hrun hs hstack
  obtain ⟨_, s₁, h₁, hrun⟩ := bind_inv hrun
  obtain ⟨_, s₂, h₂, h₃⟩ := bind_inv hrun
  unfold Generator.pushBlock at h₁
  split at h₁
  · cases h₁
  · next bindgen hpush =>
      cases h₁
      obtain ⟨hs₂, hstack₂, -⟩ := h _ _ s₂ 0 (n :: l) h₂ (hI.pushBlock hpush hs) hstack
      unfold Generator.finishBlock at h₃
      split at h₃
      · split at h₃
        · cases h₃
        · next bindgen hfinish =>
            cases h₃
            exact ⟨hI.finishBlock (fun o ho => hstack₂ o (List.mem_of_mem_drop ho)) hfinish hs₂,
              fun o ho => hstack₂ o (List.mem_of_mem_take ho), trivial⟩
      · cases h₃

end

theorem lowerEach {lowers : List (Gen B Unit)} (h : ∀ g ∈ lowers, Steady I Q g)
    {values : List B.Operand} (hvalues : ∀ v ∈ values, Q v) :
    Steady I Q (lowerEach lowers values) :=
  forM fun x hx => (push (hvalues x.2 (List.of_mem_zip hx).2)).and_then fun _ =>
    h x.1 (List.of_mem_zip hx).1

theorem writeFieldsToMemory {members : List (MemMember B)}
    (h : ∀ m ∈ members, ∀ a o, Q a → Steady I Q (m.2 a o)) {addr : B.Operand} (haddr : Q addr)
    (offset : ArchitectureSize) : Steady I Q (writeFieldsToMemory W members addr offset) :=
  (drain _).bind fun _ hfields => forM fun x hx =>
    (push (hfields x.2 (List.of_mem_zip hx).2)).and_then fun _ =>
      h x.1.2 (List.of_mem_zip (List.of_mem_zip hx).1).2 _ _ haddr

theorem emitCasts {P : Instruction → Prop} (hI : Stable B P I Q)
    (hcasts : ∀ casts, P (.bitcasts casts)) (src dst : List WasmType) :
    Steady I Q (emitCasts W src dst : Gen B Unit) :=
  (orPanic _ _).and_then fun _ => ite (emit hI (hcasts _) rfl) done

/-! ## Lowering -/

section
variable {P : Instruction → Prop} (hI : Stable B P I Q)
  (hP : ∀ i : Instruction, i.lowering → i.allocates = false → P i)
include hI hP

theorem lowerVariantArm (results : List WasmType) (i : Nat) {arm : Option (Member B)}
    (h : ∀ t g, arm = some (t, g) → Steady I Q g) :
    Keeps I Q (fun _ => True) 0 1 (lowerVariantArm W results i arm) := by
  refine block hI _ ((emit hI (hP _ rfl rfl) rfl).and_then fun _ => pop.bind fun payload hpayload =>
    (emit hI (hP _ rfl rfl) rfl).and_then fun _ => ?_)
  have hzero : ∀ pushed, Steady I Q (if pushed < results.length then
      Generator.emit W (.constZero (results.drop pushed)) else Pure.pure () : Gen B Unit) :=
    fun pushed => ite (emit hI (hP _ rfl rfl) rfl) done
  have hpure : ∀ n : Nat, Steady I Q (Pure.pure n : Gen B Nat) := fun n => pure trivial
  cases arm with
  | none => exact (hpure _).and_then hzero
  | some m =>
    obtain ⟨t, g⟩ := m
    exact (push hpayload).and_then fun _ => (h t g rfl).and_then fun _ =>
      (flatTypes t).and_then fun _ => (emitCasts hI (fun _ => hP _ rfl rfl) _ _).and_then fun _ =>
        (hpure _).and_then hzero

theorem lowerVariantArms (ty : Ty) {arms : List (Option (Member B))}
    (h : ∀ t g, some (t, g) ∈ arms → Steady I Q g) :
    Keeps I Q (fun _ => True) 0 arms.length (lowerVariantArms W ty arms) := by
  have hturns : ∀ results, ∀ x ∈ arms.zipIdx, Keeps I Q (fun _ => True) 0 1
      (Generator.lowerVariantArm W results x.2 x.1) := by
    intro results x hx
    refine lowerVariantArm hI hP results x.2 fun t g ht => h t g ?_
    rw [← ht]
    exact List.fst_mem_of_mem_zipIdx hx
  refine (flatTypes ty).and_then fun results => ?_
  have hloop := forM_blocks (hturns results)
  rw [List.length_zipIdx] at hloop
  exact hloop.and_then fun _ => pure trivial

theorem storeIntrepr (offset : ArchitectureSize) (repr : IntRepr) :
    Steady I Q (storeIntrepr W offset repr : Gen B Unit) := by
  cases repr <;> exact emit hI (hP _ rfl rfl) rfl

theorem writeVariantArm (offset payloadOffset : ArchitectureSize) {addr : B.Operand}
    (haddr : Q addr) (tag : IntRepr) (i : Nat) {arm : Option (MemMember B)}
    (h : ∀ t g, arm = some (t, g) → ∀ a o, Q a → Steady I Q (g a o)) :
    Keeps I Q (fun _ => True) 0 1 (writeVariantArm W offset payloadOffset addr tag i arm) := by
  refine block hI _ ((emit hI (hP _ rfl rfl) rfl).and_then fun _ => pop.bind fun payload hpayload =>
    (emit hI (hP _ rfl rfl) rfl).and_then fun _ => (push haddr).and_then fun _ =>
      (storeIntrepr hI hP offset tag).and_then fun _ => ?_)
  cases arm with
  | none => exact done
  | some m =>
    obtain ⟨t, g⟩ := m
    exact (push hpayload).and_then fun _ => h t g rfl _ _ haddr

theorem writeVariantArmsToMemory (offset : ArchitectureSize) {addr : B.Operand} (haddr : Q addr)
    (tag : IntRepr) {arms : List (Option (MemMember B))}
    (h : ∀ t g, some (t, g) ∈ arms → ∀ a o, Q a → Steady I Q (g a o)) :
    Keeps I Q (fun _ => True) 0 arms.length
      (writeVariantArmsToMemory W offset addr tag arms) := by
  have hturns : ∀ x ∈ arms.zipIdx, Keeps I Q (fun _ => True) 0 1 (Generator.writeVariantArm W
      offset (offset + W.payloadOffset tag (arms.map fun a => a.map (·.1))) addr tag x.2 x.1) := by
    intro x hx
    refine writeVariantArm hI hP _ _ haddr _ _ fun t g ht => h t g ?_
    rw [← ht]
    exact List.fst_mem_of_mem_zipIdx hx
  have hloop := forM_blocks hturns
  rwa [List.length_zipIdx] at hloop

theorem writeListToMemory (ty : Ty) {lower : Gen B Unit} (h : Steady I Q lower)
    {addr : B.Operand} (haddr : Q addr) (offset : ArchitectureSize) :
    Steady I Q (writeListToMemory W ty lower addr offset) :=
  h.and_then fun _ => (push haddr).and_then fun _ => (emit hI (hP _ rfl rfl) rfl).and_then fun _ =>
    (push haddr).and_then fun _ => emit hI (hP _ rfl rfl) rfl

theorem lowerAndEmit {lower : Gen B Unit} (h : Steady I Q lower) {addr : B.Operand}
    (haddr : Q addr) {i : Instruction} (hi : i.lowering) (hi' : i.allocates = false)
    (hb : i.blockResults.length = 0) : Steady I Q (lowerAndEmit W lower addr i) :=
  h.and_then fun _ => (push haddr).and_then fun _ => emit hI (hP _ hi hi') hb

theorem storeFlags (repr : FlagsRepr) {addr : B.Operand} (haddr : Q addr)
    (offset : ArchitectureSize) : Steady I Q (storeFlags W repr addr offset) := by
  cases repr with
  | u8 => exact (push haddr).and_then fun _ => storeIntrepr hI hP _ _
  | u16 => exact (push haddr).and_then fun _ => storeIntrepr hI hP _ _
  | u32 n => exact forM fun i _ => (push haddr).and_then fun _ => emit hI (hP _ rfl rfl) rfl

end

/-! ## Lifting -/

theorem forEachRecordType {members : List (Member B)} (h : ∀ m ∈ members, Steady I Q m.2)
    {args : List B.Operand} (hargs : ∀ x ∈ args, Q x) :
    Steady I Q (forEachRecordType W members args) := by
  induction members generalizing args with
  | nil => exact done
  | cons m members ih =>
    exact (flatTypes m.1).and_then fun _ => (slice _ hargs).bind fun xs hxs =>
      (extend hxs).and_then fun _ => (h m List.mem_cons_self).and_then fun _ =>
        ih (fun k hk => h k (List.mem_cons_of_mem _ hk))
          fun x hx => hargs x (List.mem_of_mem_drop hx)

theorem flatForEachRecordType (container : Ty) {members : List (Member B)}
    (h : ∀ m ∈ members, Steady I Q m.2) :
    Steady I Q (flatForEachRecordType W container members) :=
  (flatTypes container).and_then fun _ => (drain _).bind fun _ hargs => forEachRecordType h hargs

theorem forEachField {members : List (MemMember B)}
    (h : ∀ m ∈ members, ∀ a o, Q a → Steady I Q (m.2 a o)) {addr : B.Operand} (haddr : Q addr)
    (offset : ArchitectureSize) : Steady I Q (forEachField W members addr offset) :=
  forM fun x hx => h x.2 (List.of_mem_zip hx).2 _ _ haddr

theorem liftEach (i : Nat) {lift : Gen B Unit} (h : Steady I Q lift) (n : Nat)
    {args : List B.Operand} (hargs : ∀ x ∈ args, Q x) : Steady I Q (liftEach i lift n args) := by
  induction n generalizing args with
  | zero => exact done
  | succ n ih =>
    exact (slice _ hargs).bind fun xs hxs => (extend hxs).and_then fun _ => h.and_then fun _ =>
      ih fun x hx => hargs x (List.mem_of_mem_drop hx)

section
variable {P : Instruction → Prop} (hI : Stable B P I Q) (hcasts : ∀ casts, P (.bitcasts casts))
include hI hcasts

theorem flatForVariantArm (params : List WasmType) (hasResult : Bool)
    {inputs : List B.Operand} (hinputs : ∀ x ∈ inputs, Q x) {arm : Option (Member B)}
    (h : ∀ t g, arm = some (t, g) → Steady I Q g) :
    Keeps I Q (fun _ => True) 0 1 (flatForVariantArm W params hasResult inputs arm) := by
  refine block hI _ ?_
  cases arm with
  | none => exact done
  | some m =>
    obtain ⟨t, g⟩ := m
    exact (flatTypes t).and_then fun _ => (slice _ hinputs).bind fun xs hxs =>
      (extend hxs).and_then fun _ => (emitCasts hI hcasts _ _).and_then fun _ => h t g rfl

theorem flatForEachVariantArm (ty : Ty) (hasResult : Bool) {arms : List (Option (Member B))}
    (h : ∀ t g, some (t, g) ∈ arms → Steady I Q g) :
    Keeps I Q (fun _ => True) 0 arms.length (flatForEachVariantArm W ty hasResult arms) :=
  (flatTypes ty).and_then fun _ => (drain _).bind fun _ hinputs => forM_blocks fun _ harm =>
    flatForVariantArm hI hcasts _ _ hinputs fun t g ht => h t g (ht ▸ harm)

end

section
variable {P : Instruction → Prop} (hI : Stable B P I Q)
  (hP : ∀ i : Instruction, i.loads → P i)
include hI hP

theorem loadIntrepr (offset : ArchitectureSize) (repr : IntRepr) :
    Steady I Q (loadIntrepr W offset repr : Gen B Unit) := by
  cases repr <;> exact emit hI (hP _ rfl) rfl

theorem readVariantArmsFromMemory (offset : ArchitectureSize) {addr : B.Operand} (haddr : Q addr)
    (tag : IntRepr) {arms : List (Option (MemMember B))}
    (h : ∀ t g, some (t, g) ∈ arms → ∀ a o, Q a → Steady I Q (g a o)) :
    Keeps I Q (fun _ => True) 0 arms.length
      (readVariantArmsFromMemory W offset addr tag arms) := by
  refine (push haddr).and_then fun _ => (loadIntrepr hI hP _ _).and_then fun _ =>
    forM_blocks fun arm harm => block hI _ ?_
  cases arm with
  | none => exact done
  | some m => exact h m.1 m.2 harm _ _ haddr

theorem readListFromMemory (ty : Ty) {lift : Gen B Unit} (h : Steady I Q lift)
    {addr : B.Operand} (haddr : Q addr) (offset : ArchitectureSize) :
    Steady I Q (readListFromMemory W ty lift addr offset) :=
  (push haddr).and_then fun _ => (emit hI (hP _ rfl) rfl).and_then fun _ =>
    (push haddr).and_then fun _ => (emit hI (hP _ rfl) rfl).and_then fun _ => h

theorem emitAndLift {lift : Gen B Unit} (h : Steady I Q lift) {addr : B.Operand} (haddr : Q addr)
    {i : Instruction} (hi : i.loads) :
    Steady I Q (emitAndLift W lift addr i) :=
  (push haddr).and_then fun _ => (emit hI (hP _ hi) (Instruction.blockResults_of_loads hi)).and_then fun _ => h

theorem loadFlags (repr : FlagsRepr) {addr : B.Operand} (haddr : Q addr)
    (offset : ArchitectureSize) : Steady I Q (loadFlags W repr addr offset) := by
  cases repr with
  | u8 => exact (push haddr).and_then fun _ => loadIntrepr hI hP _ _
  | u16 => exact (push haddr).and_then fun _ => loadIntrepr hI hP _ _
  | u32 n => exact forM fun i _ => (push haddr).and_then fun _ => emit hI (hP _ rfl) rfl

end

/-! ## Types -/

theorem lower_and_write {P : Instruction → Prop} (hI : Stable B P I Q) (ty : Ty)
    (hP : ∀ i : Instruction, i.lowering → (i.allocates → ty.HasList) → P i) :
    Steady I Q (Generator.lower W ty : Gen B Unit) ∧
      ∀ addr offset, Q addr →
        Steady I Q (Generator.writeToMemory W ty addr offset : Gen B Unit) := by
  have hplain : ∀ i : Instruction, i.lowering → i.allocates = false → P i := fun i hi ha =>
    hP i hi fun h => by rw [ha] at h; cases h
  induction ty using Ty.ind with
  | prim q =>
    refine flat_and_memory ?_ fun hlower addr offset haddr => ?_
    · rw [Generator.lower]
      cases q <;> exact emit hI (hplain _ rfl rfl) rfl
    · rw [Generator.writeToMemory]
      cases q <;> exact lowerAndEmit hI hplain hlower haddr rfl rfl rfl
  | errorContext | handle | future | stream =>
    refine flat_and_memory ?_ fun hlower addr offset haddr => ?_
    · rw [Generator.lower]
      exact emit hI (hplain _ rfl rfl) rfl
    · rw [Generator.writeToMemory]
      exact lowerAndEmit hI hplain hlower haddr rfl rfl rfl
  | string =>
    refine flat_and_memory ?_ fun hlower addr offset haddr => ?_
    · rw [Generator.lower]
      exact listRealloc.and_then fun _ => emit hI (hP _ rfl fun _ => .string) rfl
    · rw [Generator.writeToMemory]
      exact writeListToMemory hI hplain _ hlower haddr offset
  | type id t ih =>
    rw [Generator.lower]
    refine (ih fun i hi ha => hP i hi fun h => .type (ha h)).imp_right fun hwrite addr offset => ?_
    rw [Generator.writeToMemory]
    exact hwrite addr offset
  | list id t ih =>
    have hlist : ∀ i : Instruction, i.lowering → P i := fun i hi => hP i hi fun _ => .list
    obtain ⟨-, hwrite⟩ := ih fun i hi _ => hlist i hi
    refine flat_and_memory ?_ fun hlower addr offset haddr => ?_
    · rw [Generator.lower]
      refine listRealloc.and_then fun _ => (pure trivial).and_then fun canonical =>
        ite (emit hI (hlist _ rfl) rfl) ((block hI _ ?_).and_then fun _ => emit hI (hlist _ rfl) rfl)
      exact (emit hI (hlist _ rfl) rfl).and_then fun _ =>
        (emit hI (hlist _ rfl) rfl).and_then fun _ => pop.bind fun p hp => hwrite p _ hp
    · rw [Generator.writeToMemory]
      exact writeListToMemory hI hplain _ hlower haddr offset
  | map id k t ihk iht =>
    have hlist : ∀ i : Instruction, i.lowering → P i := fun i hi => hP i hi fun _ => .map
    obtain ⟨-, hkey⟩ := ihk fun i hi _ => hlist i hi
    obtain ⟨-, hvalue⟩ := iht fun i hi _ => hlist i hi
    refine flat_and_memory ?_ fun hlower addr offset haddr => ?_
    · rw [Generator.lower]
      refine listRealloc.and_then fun _ => (valueOffset k t).and_then fun _ =>
        (block hI _ ?_).and_then fun _ => emit hI (hlist _ rfl) rfl
      exact (emit hI (hlist _ rfl) rfl).and_then fun _ =>
        (emit hI (hlist _ rfl) rfl).and_then fun _ => pop.bind fun p hp =>
          (hkey p _ hp).and_then fun _ => (emit hI (hlist _ rfl) rfl).and_then fun _ =>
            (emit hI (hlist _ rfl) rfl).and_then fun _ => pop.bind fun p hp => hvalue p _ hp
    · rw [Generator.writeToMemory]
      exact writeListToMemory hI hplain _ hlower haddr offset
  | fixedLengthList id t n ih =>
    obtain ⟨hlower, hwrite⟩ := ih fun i hi ha => hP i hi fun h => .fixedLengthList (ha h)
    refine ⟨?_, fun addr offset haddr => ?_⟩
    · rw [Generator.lower]
      refine (emit hI (hplain _ rfl rfl) rfl).and_then fun _ => (drain _).bind fun _ hvalues =>
        lowerEach (fun g hg => ?_) hvalues
      obtain ⟨-, rfl⟩ := List.mem_replicate.mp hg
      exact hlower
    · rw [Generator.writeToMemory]
      refine (block hI _ ?_).and_then fun _ => (push haddr).and_then fun _ =>
        emit hI (hplain _ rfl rfl) rfl
      exact (emit hI (hplain _ rfl rfl) rfl).and_then fun _ =>
        (emit hI (hplain _ rfl rfl) rfl).and_then fun _ => pop.bind fun p hp => hwrite p _ hp
  | fields ty types hf ih =>
    have hfield := fun t (ht : t ∈ types) => ih t ht fun i hi ha => hP i hi fun h =>
      .fields hf ht (ha h)
    obtain ⟨i, hi, hlower, hwrite⟩ := lower_fields_eq (W := W) (B := B) hf
    obtain ⟨hi, hallocates, hblocks⟩ := hi.lowering
    have hemit := emit (W := W) hI (hplain i hi hallocates) hblocks
    refine ⟨?_, fun addr offset haddr => ?_⟩
    · rw [hlower]
      exact hemit.and_then fun _ => (drain _).bind fun _ hvalues =>
        lowerEach (List.forall_mem_map.mpr fun t ht => (hfield t ht).1) hvalues
    · rw [hwrite]
      exact hemit.and_then fun _ => writeFieldsToMemory
        (List.forall_mem_map.mpr fun t ht => (hfield t ht).2) haddr offset
  | flags id name names =>
    refine flat_and_memory ?_ fun hlower addr offset haddr => ?_
    · rw [Generator.lower]
      exact emit hI (hplain _ rfl rfl) rfl
    · rw [Generator.writeToMemory]
      exact hlower.and_then fun _ => storeFlags hI hplain _ haddr offset
  | arms ty arms ha ih =>
    have harm := fun t (ht : some t ∈ arms) => ih t ht fun i hi h => hP i hi fun h' =>
      .arms ha ht (h h')
    obtain ⟨i, hi, hlower, hwrite⟩ := lower_arms_eq (W := W) (B := B) ha
    have hemit := fun results => emit (W := W) hI
      (hplain _ (hi.lowering results).1 (hi.lowering results).2.1) (hi.lowering results).2.2
    refine ⟨?_, fun addr offset haddr => ?_⟩
    · rw [hlower]
      have hloop := lowerVariantArms (W := W) hI hplain ty
        (arms_members fun t ht => (harm t ht).1)
      rw [List.length_map] at hloop
      exact hloop.and_then hemit
    · rw [hwrite]
      have hloop := writeVariantArmsToMemory (W := W) hI hplain offset haddr (W.armTag ty)
        (arms_members (Q := fun g : B.Operand → ArchitectureSize → Gen B Unit =>
          ∀ a o, Q a → Steady I Q (g a o)) fun t ht => (harm t ht).2)
      rw [List.length_map] at hloop
      exact hloop.and_then fun _ => hemit []
  | enum id name cases' =>
    refine flat_and_memory ?_ fun hlower addr offset haddr => ?_
    · rw [Generator.lower]
      exact emit hI (hplain _ rfl rfl) rfl
    · rw [Generator.writeToMemory]
      exact hlower.and_then fun _ => (push haddr).and_then fun _ => storeIntrepr hI hplain _ _
  | resource | unknown =>
    refine ⟨by rw [Generator.lower]; exact panic _, fun addr offset haddr => ?_⟩
    rw [Generator.writeToMemory]
    exact panic _

/-- The handles that are lifted are those of the type. -/
theorem lift_and_read_handles {P : Instruction → Prop} (hI : Stable B P I Q) (ty : Ty)
    (hP : ∀ i : Instruction, i.lifting → (ty.Valid → i.armed) →
      (∀ h name id, i = .handleLift h name id → ty.HasHandle id h name) → P i) :
    Steady I Q (Generator.lift W ty : Gen B Unit) ∧
      ∀ addr offset, Q addr →
        Steady I Q (Generator.readFromMemory W ty addr offset : Gen B Unit) := by
  have hplain : ∀ i : Instruction, i.lifting → i.armed →
      (∀ h name id, i ≠ .handleLift h name id) → P i := fun i hi ha hne =>
    hP i hi (fun _ => ha) fun h name id heq => absurd heq (hne h name id)
  have hloads : ∀ i : Instruction, i.loads → P i := fun i hi =>
    hplain i (Instruction.lifting_of_loads hi) (Instruction.armed_of_loads hi) fun h name id heq => by
      rw [heq] at hi; cases hi
  have hbase : P .iterBasePointer := hplain _ rfl rfl fun _ _ _ h => by cases h
  induction ty using Ty.ind with
  | prim q =>
    refine flat_and_memory ?_ fun hlift addr offset haddr => ?_
    · rw [Generator.lift]
      cases q <;> exact emit hI (hplain _ rfl rfl fun _ _ _ h => by cases h) rfl
    · rw [Generator.readFromMemory]
      cases q <;> exact emitAndLift hI hloads hlift haddr rfl
  | errorContext | future | stream =>
    refine flat_and_memory ?_ fun hlift addr offset haddr => ?_
    · rw [Generator.lift]
      exact emit hI (hplain _ rfl rfl (by simp)) rfl
    · rw [Generator.readFromMemory]
      exact emitAndLift hI hloads hlift haddr rfl
  | handle id h name =>
    refine flat_and_memory ?_ fun hlift addr offset haddr => ?_
    · rw [Generator.lift]
      exact emit hI (hP _ rfl (fun _ => rfl) fun h name id heq => by cases heq; exact .handle) rfl
    · rw [Generator.readFromMemory]
      exact emitAndLift hI hloads hlift haddr rfl
  | string =>
    refine flat_and_memory ?_ fun hlift addr offset haddr => ?_
    · rw [Generator.lift]
      exact emit hI (hplain _ rfl rfl (by simp)) rfl
    · rw [Generator.readFromMemory]
      exact readListFromMemory hI hloads _ hlift haddr offset
  | type id t ih =>
    rw [Generator.lift]
    refine (ih fun i hi ha hh => hP i hi (fun hv => ha hv.of_type) fun h name id heq =>
      .type (hh h name id heq)).imp_right fun hread addr offset => ?_
    rw [Generator.readFromMemory]
    exact hread addr offset
  | list id t ih =>
    obtain ⟨-, hread⟩ := ih fun i hi ha hh => hP i hi (fun hv => ha hv.of_list) fun h name id heq =>
      .list (hh h name id heq)
    refine flat_and_memory ?_ fun hlift addr offset haddr => ?_
    · rw [Generator.lift]
      refine (pure trivial).and_then fun canonical => ite (emit hI (hplain _ rfl rfl (by simp)) rfl) ?_
      refine (block hI _ ?_).and_then fun _ => emit hI (hplain _ rfl rfl (by simp)) rfl
      exact (emit hI hbase rfl).and_then fun _ => pop.bind fun p hp => hread p _ hp
    · rw [Generator.readFromMemory]
      exact readListFromMemory hI hloads _ hlift haddr offset
  | map id k t ihk iht =>
    obtain ⟨-, hkey⟩ := ihk fun i hi ha hh => hP i hi (fun hv => ha hv.of_map.1) fun h name id heq =>
      .key (hh h name id heq)
    obtain ⟨-, hvalue⟩ := iht fun i hi ha hh => hP i hi (fun hv => ha hv.of_map.2) fun h name id heq =>
      .value (hh h name id heq)
    refine flat_and_memory ?_ fun hlift addr offset haddr => ?_
    · rw [Generator.lift]
      refine (valueOffset k t).and_then fun _ => (block hI _ ?_).and_then fun _ =>
        emit hI (hplain _ rfl rfl (by simp)) rfl
      exact (emit hI hbase rfl).and_then fun _ => pop.bind fun p hp =>
        (hkey p _ hp).and_then fun _ => hvalue p _ hp
    · rw [Generator.readFromMemory]
      exact readListFromMemory hI hloads _ hlift haddr offset
  | fixedLengthList id t n ih =>
    obtain ⟨hlift, hread⟩ := ih fun i hi ha hh => hP i hi (fun hv => ha hv.of_fixedLengthList.2)
      fun h name id heq => .fixedLengthList (hh h name id heq)
    refine ⟨?_, fun addr offset haddr => ?_⟩
    · rw [Generator.lift]
      exact (flatTypes t).and_then fun _ => (drain _).bind fun _ hargs =>
        (liftEach _ hlift _ hargs).and_then fun _ => emit hI (hplain _ rfl rfl (by simp)) rfl
    · rw [Generator.readFromMemory]
      refine (block hI _ ?_).and_then fun _ => (push haddr).and_then fun _ =>
        emit hI (hplain _ rfl rfl (by simp)) rfl
      exact (emit hI hbase rfl).and_then fun _ => pop.bind fun p hp => hread p _ hp
  | fields ty types hf ih =>
    have hfield := fun t (ht : t ∈ types) => ih t ht fun i hi ha hh =>
      hP i hi (fun hv => ha (hv.of_fields hf t ht)) fun h name id heq => .fields hf ht (hh h name id heq)
    obtain ⟨i, hfields, hlift, hread⟩ := lift_fields_eq (W := W) (B := B) hf
    obtain ⟨hi, -, harmed, hblocks⟩ := hfields.lifting
    have hemit := emit (W := W) hI (hplain i hi harmed fun h name id heq => by
      rw [heq] at hfields; cases hfields) hblocks
    refine ⟨?_, fun addr offset haddr => ?_⟩
    · rw [hlift]
      exact (flatForEachRecordType _ (List.forall_mem_map.mpr fun t ht =>
        (hfield t ht).1)).and_then fun _ => hemit
    · rw [hread]
      exact (forEachField (List.forall_mem_map.mpr fun t ht => (hfield t ht).2) haddr
        offset).and_then fun _ => hemit
  | flags id name names =>
    refine flat_and_memory ?_ fun hlift addr offset haddr => ?_
    · rw [Generator.lift]
      exact emit hI (hplain _ rfl rfl (by simp)) rfl
    · rw [Generator.readFromMemory]
      exact (loadFlags hI hloads _ haddr offset).and_then fun _ => hlift
  | arms ty arms ha ih =>
    obtain ⟨i, harms, hlift, hread⟩ := lift_arms_eq (W := W) (B := B) ha
    obtain ⟨hi, harmed, hblocks⟩ := harms.lifting
    have harm := fun t (ht : some t ∈ arms) => ih t ht fun i hi ha' hh =>
      hP i hi (fun hv => ha' ((hv.of_arms ha).2 t ht)) fun h name id heq => .arms ha ht (hh h name id heq)
    have hemit : Keeps I Q (fun _ => True) arms.length 0 (Generator.emit W i : Gen B Unit) :=
      emit hI (hP i (Instruction.lifting_of_liftsArms hi) (fun hv => harmed (hv.of_arms ha).1)
        fun h name id heq => by rw [heq] at hi; cases hi) hblocks
    refine ⟨?_, fun addr offset haddr => ?_⟩
    · rw [hlift]
      have hloop := flatForEachVariantArm (W := W) hI (fun _ => hplain _ rfl rfl (by simp)) ty true
        (arms_members fun t ht => (harm t ht).1)
      rw [List.length_map] at hloop
      exact hloop.and_then fun _ => hemit
    · rw [hread]
      have hloop := readVariantArmsFromMemory (W := W) hI hloads offset haddr (W.armTag ty)
        (arms_members (Q := fun g : B.Operand → ArchitectureSize → Gen B Unit =>
          ∀ a o, Q a → Steady I Q (g a o)) fun t ht => (harm t ht).2)
      rw [List.length_map] at hloop
      exact hloop.and_then fun _ => hemit
  | enum id name cases' =>
    refine flat_and_memory ?_ fun hlift addr offset haddr => ?_
    · rw [Generator.lift]
      exact emit hI (hplain _ rfl rfl (by simp)) rfl
    · rw [Generator.readFromMemory]
      exact (push haddr).and_then fun _ => (loadIntrepr hI hloads _ _).and_then fun _ => hlift
  | resource | unknown =>
    refine ⟨by rw [Generator.lift]; exact panic _, fun addr offset haddr => ?_⟩
    rw [Generator.readFromMemory]
    exact panic _

theorem lift_and_read {P : Instruction → Prop} (hI : Stable B P I Q) (ty : Ty)
    (hP : ∀ i : Instruction, i.lifting → (ty.Valid → i.armed) → P i) :
    Steady I Q (Generator.lift W ty : Gen B Unit) ∧
      ∀ addr offset, Q addr →
        Steady I Q (Generator.readFromMemory W ty addr offset : Gen B Unit) :=
  lift_and_read_handles hI ty fun i hi ha _ => hP i hi ha

/-! ## Calls -/

section
variable {P : Instruction → Prop}

theorem forEachParam {params : List (Ty × (ArchitectureSize → Gen B Unit))}
    (h : ∀ p ∈ params, ∀ offset, Steady I Q (p.2 offset)) (offset : ArchitectureSize) :
    Steady I Q (forEachParam W params offset) := by
  induction params generalizing offset with
  | nil => exact done
  | cons p params ih =>
    exact (h p List.mem_cons_self _).and_then fun _ =>
      ih (fun q hq => h q (List.mem_cons_of_mem _ hq)) _

theorem readParamsFromMemory (hI : Stable B P I Q) {params : List Ty}
    (hP : ∀ i : Instruction, i.lifting → ((∀ t ∈ params, t.Valid) → i.armed) → P i) :
    Steady I Q (readParamsFromMemory W params : Gen B Unit) := by
  refine pop.bind fun ptr hptr => forEachParam (fun p hp offset => ?_) _
  obtain ⟨t, ht, rfl⟩ := List.mem_map.mp hp
  exact (lift_and_read hI t fun i hi ha => hP i hi fun hv => ha (hv t ht)).2 ptr offset hptr

end

end Keeps

end

end Generator

end WitBindgen
