import WitBindgen.Wit.Parser
import Mathlib.Data.List.Forall2
import Mathlib.Tactic.Ring

/-!
# The canonical layout

`WitParser.canonical` computes sizes, offsets and flat types the way the
canonical ABI asks for, for guests with pointers of four bytes. It satisfies
every law the generator relies on, so no statement that assumes `Lawful` is
empty.
-/

namespace WitBindgen

/-! ## Alignment -/

/-- The least multiple of `a` that is at least `n`. -/
def alignTo (n a : Nat) : Nat := n + (a - n % a) % a

theorem le_alignTo (n a : Nat) : n ≤ alignTo n a := Nat.le_add_right ..

def ArchitectureSize.max (s t : ArchitectureSize) : ArchitectureSize :=
  if t.eval 4 ≤ s.eval 4 ∧ t.eval 8 ≤ s.eval 8 then s
  else if s.eval 4 ≤ t.eval 4 ∧ s.eval 8 ≤ t.eval 8 then t
  else
    let new32 := alignTo (Max.max (s.eval 4) (t.eval 4)) 4
    let new64 := alignTo (Max.max (s.eval 8) (t.eval 8)) 8
    ⟨new32 + new32 - new64, (new64 - new32) / 4⟩

def Alignment.max : Alignment → Alignment → Alignment
  | .pointer, .pointer => .pointer
  | .pointer, .bytes n => if 4 < n then .bytes n else .pointer
  | .bytes n, .pointer => if 4 < n then .bytes n else .pointer
  | .bytes n, .bytes m => .bytes (Max.max n m)

def alignToArch (s : ArchitectureSize) : Alignment → ArchitectureSize
  | .pointer =>
    let new32 := alignTo s.bytes 4
    if new32 ≠ alignTo new32 8 then ⟨new32 - 4, s.pointers + 1⟩ else ⟨new32, s.pointers⟩
  | .bytes a =>
    let newBytes := alignTo s.bytes a
    if 4 < a ∧ s.pointers % 2 ≠ 0 then
      -- an odd number of pointers of four bytes is misaligned by half
      if 4 ≤ newBytes - s.bytes then ⟨newBytes - 8, s.pointers + 1⟩
      else ⟨newBytes + 8, s.pointers - 1⟩
    else ⟨newBytes, s.pointers⟩

theorem eval_le_alignToArch (s : ArchitectureSize) (a : Alignment) :
    s.eval 4 ≤ (alignToArch s a).eval 4 := by
  cases a with
  | pointer =>
    have h := le_alignTo s.bytes 4
    simp only [alignToArch]
    split <;> simp only [ArchitectureSize.eval] <;> omega
  | bytes a =>
    have h := le_alignTo s.bytes a
    simp only [alignToArch]
    split
    · split <;> simp only [ArchitectureSize.eval] <;> omega
    · simp only [ArchitectureSize.eval]
      omega

theorem ArchitectureSize.eval_eight (s : ArchitectureSize) :
    s.eval 4 ≤ s.eval 8 ∧ s.eval 8 ≤ 2 * s.eval 4 := by
  simp only [ArchitectureSize.eval]
  omega

/-- The bytes and the pointers that `max` puts together have the size that is asked for. -/
theorem eval_restored {n m : Nat} (hn : n % 4 = 0) (hm : m % 8 = 0) (hle : n ≤ m) (htwice : m ≤ 2 * n) :
    (ArchitectureSize.mk (n + n - m) ((m - n) / 4)).eval 4 = n := by
  simp only [ArchitectureSize.eval]
  omega

/-- Neither size is the larger one for both widths of a pointer. -/
theorem ArchitectureSize.eval_max {s t : ArchitectureSize}
    (hs : ¬(t.eval 4 ≤ s.eval 4 ∧ t.eval 8 ≤ s.eval 8)) (ht : ¬(s.eval 4 ≤ t.eval 4 ∧ s.eval 8 ≤ t.eval 8)) :
    (s.max t).eval 4 = alignTo (Max.max (s.eval 4) (t.eval 4)) 4 := by
  have hwide : Max.max (s.eval 4) (t.eval 4) ≤ Max.max (s.eval 8) (t.eval 8) :=
    max_le_max s.eval_eight.1 t.eval_eight.1
  have htwice : Max.max (s.eval 8) (t.eval 8) ≤ 2 * Max.max (s.eval 4) (t.eval 4) :=
    max_le (Nat.le_trans s.eval_eight.2 (Nat.mul_le_mul_left 2 (le_max_left ..)))
      (Nat.le_trans t.eval_eight.2 (Nat.mul_le_mul_left 2 (le_max_right ..)))
  rw [ArchitectureSize.max, if_neg hs, if_neg ht]
  generalize Max.max (s.eval 4) (t.eval 4) = n at hwide htwice ⊢
  generalize Max.max (s.eval 8) (t.eval 8) = m at hwide htwice ⊢
  have hn : alignTo n 4 % 4 = 0 := by unfold alignTo; omega
  have hm : alignTo m 8 % 8 = 0 := by unfold alignTo; omega
  have hle := le_alignTo m 8
  have hle' := le_alignTo n 4
  refine eval_restored hn hm ?_ ?_
  · generalize alignTo m 8 = m' at hm hle ⊢
    unfold alignTo
    omega
  · generalize alignTo n 4 = n' at hn hle' ⊢
    unfold alignTo
    omega

theorem eval_le_max (s t : ArchitectureSize) :
    s.eval 4 ≤ (s.max t).eval 4 ∧ t.eval 4 ≤ (s.max t).eval 4 := by
  by_cases hs : t.eval 4 ≤ s.eval 4 ∧ t.eval 8 ≤ s.eval 8
  · rw [ArchitectureSize.max, if_pos hs]
    exact ⟨Nat.le_refl _, hs.1⟩
  · by_cases ht : s.eval 4 ≤ t.eval 4 ∧ s.eval 8 ≤ t.eval 8
    · rw [ArchitectureSize.max, if_neg hs, if_pos ht]
      exact ⟨ht.1, Nat.le_refl _⟩
    · rw [ArchitectureSize.eval_max hs ht]
      exact max_le_iff.mp (le_alignTo _ 4)

/-! ## Sizes and alignments -/

def IntRepr.info (r : IntRepr) : ElementInfo := ⟨⟨r.bytes, 0⟩, .bytes r.bytes⟩

def recordInfo (fields : List ElementInfo) : ElementInfo :=
  let size := fields.foldl (fun cur f => alignToArch cur f.align + f.size) default
  let align := fields.foldl (fun cur f => cur.max f.align) (.bytes 1)
  ⟨alignToArch size align, align⟩

def armsAlign (arms : List (Option ElementInfo)) : Alignment :=
  arms.foldl (fun cur arm => arm.elim cur fun f => cur.max f.align) (.bytes 1)

def armsSize (arms : List (Option ElementInfo)) : ArchitectureSize :=
  arms.foldl (fun cur arm => arm.elim cur fun f => cur.max f.size) default

def payloadOffsetOf (tag : IntRepr) (arms : List (Option ElementInfo)) : ArchitectureSize :=
  alignToArch tag.info.size (armsAlign arms)

def variantInfo (tag : IntRepr) (arms : List (Option ElementInfo)) : ElementInfo :=
  let align := tag.info.align.max (armsAlign arms)
  ⟨alignToArch (payloadOffsetOf tag arms + armsSize arms) align, align⟩

def tagOf (cases : Nat) : IntRepr :=
  if cases ≤ 256 then .u8 else if cases ≤ 65536 then .u16 else .u32

def flagsReprOf (flags : Nat) : FlagsRepr :=
  if flags = 0 then .u32 0
  else if flags ≤ 8 then .u8
  else if flags ≤ 16 then .u16
  else .u32 (alignTo flags 32 / 32)

def FlagsRepr.info : FlagsRepr → ElementInfo
  | .u8 => ⟨⟨1, 0⟩, .bytes 1⟩
  | .u16 => ⟨⟨2, 0⟩, .bytes 2⟩
  | .u32 n => ⟨⟨4 * n, 0⟩, .bytes 4⟩

def pairInfo : ElementInfo := ⟨⟨0, 2⟩, .pointer⟩

def handleInfo : ElementInfo := ⟨⟨4, 0⟩, .bytes 4⟩

/-- Size and alignment of every type. -/
def Ty.info : Ty → ElementInfo
  | .prim q => ⟨⟨q.bytes, 0⟩, .bytes q.bytes⟩
  | .string => pairInfo
  | .errorContext => handleInfo
  | .type _ t => t.info
  | .list _ _ => pairInfo
  | .map _ _ _ => pairInfo
  | .fixedLengthList _ t n => ⟨⟨n * t.info.size.bytes, n * t.info.size.pointers⟩, t.info.align⟩
  | .record _ _ fields => recordInfo (fields.map fun f => f.2.info)
  | .tuple _ types => recordInfo (types.map fun t => t.info)
  | .flags _ _ names => (flagsReprOf names.length).info
  | .variant _ _ cases => variantInfo (tagOf cases.length) (cases.map fun c =>
    match _h : c.2 with
    | none => none
    | some t => some t.info)
  | .enum _ _ cases => (tagOf cases.length).info
  | .option _ t => variantInfo .u8 [none, some t.info]
  | .result _ ok err => variantInfo .u8
      [match ok with | none => none | some t => some t.info,
       match err with | none => none | some t => some t.info]
  | .handle _ _ _ => handleInfo
  | .future _ _ => handleInfo
  | .stream _ _ => handleInfo
  | .resource _ => ⟨default, .bytes 1⟩
  | .unknown _ => ⟨default, .bytes 1⟩
termination_by t => sizeOf t
decreasing_by
  all_goals first
    | decreasing_tactic
    | with_reducible exact Ty.sizeOf_field ‹_›
    | with_reducible exact Ty.sizeOf_tuple ‹_›
    | with_reducible exact Ty.sizeOf_arm ‹_› ‹_›

def offsetsFrom (cur : ArchitectureSize) : List Ty → List (ArchitectureSize × Ty)
  | [] => []
  | t :: types =>
    let offset := alignToArch cur t.info.align
    (offset, t) :: offsetsFrom (offset + t.info.size) types

theorem Ty.info_fields {ty : Ty} {types : List Ty} (h : ty.fieldTypes = some types) :
    ty.info = recordInfo (types.map Ty.info) := by
  cases h using Ty.fields_cases with
  | record id name fields =>
    rw [Ty.info, List.map_map]
    rfl
  | tuple id types' =>
    rw [Ty.info]

def Ty.armTag : Ty → IntRepr
  | .variant _ _ cases => tagOf cases.length
  | _ => .u8

theorem Ty.info_arms {ty : Ty} {arms : List (Option Ty)} (h : ty.arms = some arms) :
    ty.info = variantInfo ty.armTag (arms.map fun o => o.map Ty.info) := by
  cases h using Ty.arms_cases with
  | variant id name cases =>
    rw [Ty.info]
    congr 1
    exact Ty.map_cases ..
  | option id t =>
    rw [Ty.info]
    rfl
  | result id ok err =>
    cases ok <;> cases err <;> · rw [Ty.info]; rfl

/-! ## Records and variants hold their members -/

theorem offsetsFrom_types (cur : ArchitectureSize) (types : List Ty) :
    (offsetsFrom cur types).map (·.2) = types := by
  induction types generalizing cur with
  | nil => rfl
  | cons t types ih => simp [offsetsFrom, ih]

theorem le_offsetsFrom (cur : ArchitectureSize) (types : List Ty) :
    ∀ f ∈ offsetsFrom cur types, cur.eval 4 ≤ f.1.eval 4 := by
  induction types generalizing cur with
  | nil => intro f hf; cases hf
  | cons t types ih =>
    intro f hf
    have hle := eval_le_alignToArch cur t.info.align
    rcases List.mem_cons.mp hf with rfl | hf
    · exact hle
    · have hrest := ih _ f hf
      rw [ArchitectureSize.eval_add] at hrest
      omega

theorem offsetsFrom_apart (cur : ArchitectureSize) (types : List Ty) :
    (offsetsFrom cur types).Pairwise fun a b =>
      a.1.eval 4 + a.2.info.size.eval 4 ≤ b.1.eval 4 := by
  induction types generalizing cur with
  | nil => exact List.Pairwise.nil
  | cons t types ih =>
    refine List.Pairwise.cons (fun b hb => ?_) (ih _)
    have hle := le_offsetsFrom _ types b hb
    rwa [ArchitectureSize.eval_add] at hle

/-- The end of the last field. -/
def fieldsEnd (cur : ArchitectureSize) (fields : List ElementInfo) : ArchitectureSize :=
  fields.foldl (fun cur f => alignToArch cur f.align + f.size) cur

theorem le_fieldsEnd (cur : ArchitectureSize) (fields : List ElementInfo) :
    cur.eval 4 ≤ (fieldsEnd cur fields).eval 4 := by
  induction fields generalizing cur with
  | nil => exact Nat.le_refl _
  | cons f fields ih =>
    have hle := eval_le_alignToArch cur f.align
    have hrest := ih (alignToArch cur f.align + f.size)
    rw [ArchitectureSize.eval_add] at hrest
    exact Nat.le_trans (by omega) hrest

theorem offsetsFrom_within (cur : ArchitectureSize) (types : List Ty) :
    ∀ f ∈ offsetsFrom cur types,
      f.1.eval 4 + f.2.info.size.eval 4 ≤ (fieldsEnd cur (types.map Ty.info)).eval 4 := by
  induction types generalizing cur with
  | nil => intro f hf; cases hf
  | cons t types ih =>
    intro f hf
    rcases List.mem_cons.mp hf with rfl | hf
    · have hle := le_fieldsEnd (alignToArch cur t.info.align + t.info.size)
        (types.map Ty.info)
      rwa [ArchitectureSize.eval_add] at hle
    · exact ih _ f hf

theorem le_foldl_size (cur : ArchitectureSize) (arms : List (Option ElementInfo)) :
    let size := arms.foldl (fun cur arm => arm.elim cur fun f => cur.max f.size) cur
    cur.eval 4 ≤ size.eval 4 ∧ ∀ f, some f ∈ arms → f.size.eval 4 ≤ size.eval 4 := by
  induction arms generalizing cur with
  | nil => exact ⟨Nat.le_refl _, fun f hf => by cases hf⟩
  | cons arm arms ih =>
    obtain ⟨hcur, hrest⟩ := ih (arm.elim cur fun f => cur.max f.size)
    cases arm with
    | none =>
      refine ⟨hcur, fun f hf => hrest f ?_⟩
      simpa using hf
    | some g =>
      have hmax := eval_le_max cur g.size
      refine ⟨Nat.le_trans hmax.1 hcur, fun f hf => ?_⟩
      rcases List.mem_cons.mp hf with hfg | hf
      · obtain rfl := Option.some.inj hfg
        exact Nat.le_trans hmax.2 hcur
      · exact hrest f hf

theorem variantInfo_payload (tag : IntRepr) (arms : List (Option ElementInfo)) :
    tag.bytes ≤ (payloadOffsetOf tag arms).eval 4 ∧
      (payloadOffsetOf tag arms).eval 4 ≤ (variantInfo tag arms).size.eval 4 ∧
      ∀ f, some f ∈ arms → (payloadOffsetOf tag arms).eval 4 + f.size.eval 4 ≤
        (variantInfo tag arms).size.eval 4 := by
  have htag := eval_le_alignToArch tag.info.size (armsAlign arms)
  have hbytes : tag.info.size.eval 4 = tag.bytes := by
    simp [IntRepr.info, ArchitectureSize.eval]
  rw [hbytes] at htag
  have hend := eval_le_alignToArch (payloadOffsetOf tag arms + armsSize arms)
    (tag.info.align.max (armsAlign arms))
  rw [ArchitectureSize.eval_add] at hend
  refine ⟨htag, Nat.le_trans (Nat.le_add_right ..) hend, fun f hf => ?_⟩
  have hsize := (le_foldl_size default arms).2 f hf
  exact Nat.le_trans (Nat.add_le_add_left hsize _) hend

/-! ## Flat types -/

/-- The core type of a slot that holds either of two. -/
def join : WasmType → WasmType → WasmType
  | .i32, .i32 => .i32
  | .i64, .i64 => .i64
  | .f32, .f32 => .f32
  | .f64, .f64 => .f64
  | .pointer, .pointer => .pointer
  | .length, .length => .length
  | .i32, .f32 | .f32, .i32 => .i32
  | .length, .i32 | .length, .f32 | .i32, .length | .f32, .length => .length
  | .length, .i64 | .length, .f64 | .i64, .length | .f64, .length => .i64
  | .pointer, .i32 | .pointer, .f32 | .pointer, .length => .pointer
  | .i32, .pointer | .f32, .pointer | .length, .pointer => .pointer
  | .pointer, .i64 | .pointer, .f64 | .i64, .pointer | .f64, .pointer => .pointerOrI64
  | .pointerOrI64, _ | _, .pointerOrI64 => .pointerOrI64
  | _, _ => .i64

theorem joinsInto_join (a b : WasmType) : a.JoinsInto (join a b) ∧ b.JoinsInto (join a b) := by
  cases a <;> cases b <;> exact ⟨trivial, trivial⟩

theorem WasmType.JoinsInto.trans {a b c : WasmType} (h : a.JoinsInto b) (h' : b.JoinsInto c) :
    a.JoinsInto c := by
  cases a <;> cases b <;> first | exact False.elim h | (cases c <;> trivial)

def joinSlots : List WasmType → List WasmType → List WasmType
  | slots, [] => slots
  | [], types => types
  | slot :: slots, t :: types => join slot t :: joinSlots slots types

def joinArms (arms : List (Option (List WasmType))) : List WasmType :=
  arms.foldl (fun slots arm => joinSlots slots (arm.getD [])) []

/-- `types` can be cast into the first of `slots`. -/
def Covers (slots types : List WasmType) : Prop :=
  types.length ≤ slots.length ∧ List.Forall₂ WasmType.JoinsInto types (slots.take types.length)

theorem WasmType.JoinsInto.refl (a : WasmType) : a.JoinsInto a := by
  cases a <;> trivial

theorem Covers.refl (slots : List WasmType) : Covers slots slots := by
  refine ⟨Nat.le_refl _, ?_⟩
  rw [List.take_length]
  exact List.forall₂_same.mpr fun a _ => WasmType.JoinsInto.refl a

theorem Covers.cons {s t : WasmType} {slots types : List WasmType} (h : t.JoinsInto s)
    (hc : Covers slots types) : Covers (s :: slots) (t :: types) :=
  ⟨Nat.succ_le_succ hc.1, .cons h hc.2⟩

theorem Covers.nil (slots : List WasmType) : Covers slots [] := ⟨Nat.zero_le _, .nil⟩

theorem covers_joinSlots (slots types : List WasmType) :
    Covers (joinSlots slots types) slots ∧ Covers (joinSlots slots types) types := by
  induction slots generalizing types with
  | nil => cases types <;> exact ⟨Covers.nil _, Covers.refl _⟩
  | cons slot slots ih =>
    cases types with
    | nil => exact ⟨Covers.refl _, Covers.nil _⟩
    | cons t types =>
      obtain ⟨hs, ht⟩ := ih types
      obtain ⟨hslot, htype⟩ := joinsInto_join slot t
      exact ⟨hs.cons hslot, ht.cons htype⟩

theorem Covers.trans {xs ys zs : List WasmType} (h : Covers xs ys) (h' : Covers ys zs) :
    Covers xs zs := by
  induction zs generalizing xs ys with
  | nil => exact Covers.nil _
  | cons z zs ih =>
    obtain ⟨hlen', hall'⟩ := h'
    cases ys with
    | nil => cases hall'
    | cons y ys =>
      obtain ⟨hlen, hall⟩ := h
      cases xs with
      | nil => cases hall
      | cons x xs =>
        rw [List.length_cons, List.take_succ_cons] at hall hall'
        obtain ⟨hyx, hys⟩ := List.forall₂_cons.mp hall
        obtain ⟨hzy, hzs⟩ := List.forall₂_cons.mp hall'
        exact (ih ⟨Nat.le_of_succ_le_succ hlen, hys⟩
          ⟨Nat.le_of_succ_le_succ hlen', hzs⟩).cons (hzy.trans hyx)

theorem covers_joinArms (arms : List (Option (List WasmType))) :
    ∀ types, some types ∈ arms → Covers (joinArms arms) types := by
  have hfold : ∀ slots, Covers (arms.foldl (fun slots arm => joinSlots slots (arm.getD [])) slots)
      slots ∧ ∀ types, some types ∈ arms →
        Covers (arms.foldl (fun slots arm => joinSlots slots (arm.getD [])) slots) types := by
    induction arms with
    | nil => exact fun slots => ⟨Covers.refl _, fun types h => by cases h⟩
    | cons arm arms ih =>
      intro slots
      obtain ⟨hslots, hrest⟩ := ih (joinSlots slots (arm.getD []))
      obtain ⟨hold, hnew⟩ := covers_joinSlots slots (arm.getD [])
      refine ⟨hslots.trans hold, fun types htypes => ?_⟩
      rcases List.mem_cons.mp htypes with rfl | htypes
      · exact hslots.trans hnew
      · exact hrest types htypes
  exact (hfold []).2

/-- `Resolve::push_flat`. -/
def Ty.pushFlat : Ty → List WasmType
  | .prim q => [q.flat]
  | .string => [.pointer, .length]
  | .errorContext => [.i32]
  | .type _ t => t.pushFlat
  | .list _ _ => [.pointer, .length]
  | .map _ _ _ => [.pointer, .length]
  | .fixedLengthList _ t n => (List.replicate n t.pushFlat).flatten
  | .record _ _ fields => (fields.map fun f => f.2.pushFlat).flatten
  | .tuple _ types => (types.map fun t => t.pushFlat).flatten
  | .flags _ _ names => List.replicate (flagsReprOf names.length).count .i32
  | .variant _ _ cases => .i32 :: joinArms (cases.map fun c =>
    match _h : c.2 with
    | none => none
    | some t => some t.pushFlat)
  | .enum _ _ _ => [.i32]
  | .option _ t => .i32 :: joinArms [none, some t.pushFlat]
  | .result _ ok err => .i32 :: joinArms
      [match ok with | none => none | some t => some t.pushFlat,
       match err with | none => none | some t => some t.pushFlat]
  | .handle _ _ _ => [.i32]
  | .future _ _ => [.i32]
  | .stream _ _ => [.i32]
  | .resource _ => []
  | .unknown _ => []
termination_by t => sizeOf t
decreasing_by
  all_goals first
    | decreasing_tactic
    | with_reducible exact Ty.sizeOf_field ‹_›
    | with_reducible exact Ty.sizeOf_tuple ‹_›
    | with_reducible exact Ty.sizeOf_arm ‹_› ‹_›

theorem Ty.pushFlat_fields {ty : Ty} {types : List Ty} (h : ty.fieldTypes = some types) :
    ty.pushFlat = (types.map Ty.pushFlat).flatten := by
  cases h using Ty.fields_cases with
  | record id name fields =>
    rw [Ty.pushFlat, List.map_map]
    rfl
  | tuple id types' =>
    rw [Ty.pushFlat]

theorem Ty.pushFlat_arms {ty : Ty} {arms : List (Option Ty)} (h : ty.arms = some arms) :
    ty.pushFlat = .i32 :: joinArms (arms.map fun o => o.map Ty.pushFlat) := by
  cases h using Ty.arms_cases with
  | variant id name cases =>
    rw [Ty.pushFlat]
    congr 2
    exact Ty.map_cases ..
  | option id t =>
    rw [Ty.pushFlat]
    rfl
  | result id ok err =>
    cases ok <;> cases err <;> · rw [Ty.pushFlat]; rfl

/-! ## Core signatures -/

/-- The core parameters before a return pointer, and whether they are indirect. -/
def flatParams (variant : AbiVariant) (func : Function) : List WasmType × Bool :=
  let flat := (func.paramTypes.map Ty.pushFlat).flatten
  let max := match variant with
    | .guestImportAsync => maxFlatAsyncParams
    | _ => maxFlatParams
  if max < flat.length then ([.pointer], true)
  else match func.kind, variant, flat with
    | .method _, .guestExport, _ :: rest => (.pointer :: rest, false)
    | .method _, .guestExportAsync, _ :: rest => (.pointer :: rest, false)
    | .method _, .guestExportAsyncStackful, _ :: rest => (.pointer :: rest, false)
    | .asyncMethod _, .guestExport, _ :: rest => (.pointer :: rest, false)
    | .asyncMethod _, .guestExportAsync, _ :: rest => (.pointer :: rest, false)
    | .asyncMethod _, .guestExportAsyncStackful, _ :: rest => (.pointer :: rest, false)
    | _, _, _ => (flat, false)

def wasmSignature (variant : AbiVariant) (func : Function) : WasmSignature :=
  let (params, indirectParams) := flatParams variant func
  let flatResult := (func.result.map Ty.pushFlat).getD []
  match variant with
  | .guestImport =>
    if flatResult.length ≤ 1 then ⟨params, flatResult, indirectParams, false⟩
    else ⟨params ++ [.pointer], [], indirectParams, true⟩
  | .guestExport =>
    if flatResult.length ≤ 1 then ⟨params, flatResult, indirectParams, false⟩
    else ⟨params, [.pointer], indirectParams, true⟩
  | .guestImportAsync =>
    if func.result.isSome then ⟨params ++ [.pointer], [.i32], indirectParams, true⟩
    else ⟨params, [.i32], indirectParams, false⟩
  | .guestExportAsync => ⟨params, [.i32], indirectParams, false⟩
  | .guestExportAsyncStackful => ⟨params, [], indirectParams, false⟩

/-! ## The parser -/

def WitParser.canonical : WitParser where
  size t := t.info.size
  align t := t.info.align
  fieldOffsets types := offsetsFrom default types
  payloadOffset tag arms := payloadOffsetOf tag (arms.map fun o => o.map Ty.info)
  record types := recordInfo (types.map Ty.info)
  params types := recordInfo (types.toList.map Ty.info)
  alignToArch := WitBindgen.alignToArch
  tag := tagOf
  flagsRepr := flagsReprOf
  pushFlat := Ty.pushFlat
  wasmSignature := WitBindgen.wasmSignature

theorem armTag_canonical (ty : Ty) : WitParser.canonical.armTag ty = ty.armTag := by
  cases ty <;> rfl

theorem canonical_lawful : WitParser.canonical.Lawful 4 := by
  have hprim : ∀ q, (Ty.prim q).info = ⟨⟨q.bytes, 0⟩, .bytes q.bytes⟩ := fun q => by rw [Ty.info]
  have hpayload : ∀ ty arms, WitParser.canonical.payloadOffset (WitParser.canonical.armTag ty) arms
      = payloadOffsetOf ty.armTag (arms.map fun o => o.map Ty.info) := fun ty arms => by
    rw [armTag_canonical]; rfl
  have hsize : ∀ ty arms, ty.arms = some arms → WitParser.canonical.size ty =
      (variantInfo ty.armTag (arms.map fun o => o.map Ty.info)).size := fun ty arms h => by
    show ty.info.size = _
    rw [Ty.info_arms h]
  exact {
    width := Or.inl rfl
    size_prim := fun q => by
      show (Ty.prim q).info.size.eval 4 = _
      rw [hprim]; simp [ArchitectureSize.eval]
    size_string := by show Ty.string.info.size.eval 4 = _; rw [Ty.info]; rfl
    size_list := fun id t => by show (Ty.list id t).info.size.eval 4 = _; rw [Ty.info]; rfl
    size_map := fun id k v => by show (Ty.map id k v).info.size.eval 4 = _; rw [Ty.info]; rfl
    size_errorContext := by show Ty.errorContext.info.size.eval 4 = _; rw [Ty.info]; rfl
    size_handle := fun id h name => by
      show (Ty.handle id h name).info.size.eval 4 = _; rw [Ty.info]; rfl
    size_future := fun id t => by show (Ty.future id t).info.size.eval 4 = _; rw [Ty.info]; rfl
    size_stream := fun id t => by show (Ty.stream id t).info.size.eval 4 = _; rw [Ty.info]; rfl
    align_string := by show Ty.string.info.align = _; rw [Ty.info]; rfl
    align_list := fun id t => by show (Ty.list id t).info.align = _; rw [Ty.info]; rfl
    align_map := fun id k v => by show (Ty.map id k v).info.align = _; rw [Ty.info]; rfl
    size_type := fun id t => by show (Ty.type id t).info.size = _; rw [Ty.info]; rfl
    size_fixedLengthList := fun id t n => by
      show (Ty.fixedLengthList id t n).info.size.eval 4 = n * t.info.size.eval 4
      rw [Ty.info]
      simp only [ArchitectureSize.eval]
      ring
    size_fields := fun ty types h => by
      show ty.info.size = (recordInfo (types.map Ty.info)).size
      rw [Ty.info_fields h]
    fieldOffsets_types := offsetsFrom_types default
    fieldOffsets_apart := offsetsFrom_apart default
    fieldOffsets_within := fun types f hf => Nat.le_trans (offsetsFrom_within default types f hf)
      (eval_le_alignToArch _ _)
    tag_fits := fun n hn => by
      show n ≤ 256 ^ (tagOf n).bytes
      unfold tagOf
      split
      · exact ‹_›
      · split
        · exact ‹_›
        · exact hn
    tag_ne_u64 := fun n => by
      show tagOf n ≠ .u64
      unfold tagOf
      split
      · exact IntRepr.noConfusion
      · split <;> exact IntRepr.noConfusion
    size_enum := fun id name cases => by
      show (tagOf cases.length).bytes ≤ (Ty.enum id name cases).info.size.eval 4
      rw [Ty.info]
      exact Nat.le_add_right ..
    size_arms := fun ty arms h => by
      rw [armTag_canonical, hsize ty arms h]
      have hv := variantInfo_payload ty.armTag (arms.map fun o => o.map Ty.info)
      exact Nat.le_trans hv.1 hv.2.1
    payload_after_tag := fun ty arms _ => by
      rw [hpayload, armTag_canonical]
      exact (variantInfo_payload ty.armTag (arms.map fun o => o.map Ty.info)).1
    payload_within := fun ty arms t h ht => by
      rw [hpayload, hsize ty arms h]
      exact (variantInfo_payload ty.armTag (arms.map fun o => o.map Ty.info)).2.2 t.info
        (List.mem_map.mpr ⟨some t, ht, rfl⟩)
    flags_fit := fun n => by
      show n ≤ 8 * ((flagsReprOf n).wordBytes * (flagsReprOf n).count)
      unfold flagsReprOf
      split
      · omega
      · split
        · exact ‹_›
        · split
          · exact ‹_›
          · show n ≤ 8 * (4 * (alignTo n 32 / 32))
            unfold alignTo
            omega
    size_flags := fun id name names => by
      show (flagsReprOf names.length).wordBytes * (flagsReprOf names.length).count ≤
        (Ty.flags id name names).info.size.eval 4
      rw [Ty.info]
      cases flagsReprOf names.length <;> exact Nat.le_refl _
    flat_prim := fun q => by show (Ty.prim q).pushFlat = _; rw [Ty.pushFlat]
    flat_string := by show Ty.string.pushFlat = _; rw [Ty.pushFlat]
    flat_list := fun id t => by show (Ty.list id t).pushFlat = _; rw [Ty.pushFlat]
    flat_map := fun id k v => by show (Ty.map id k v).pushFlat = _; rw [Ty.pushFlat]
    flat_errorContext := by show Ty.errorContext.pushFlat = _; rw [Ty.pushFlat]
    flat_handle := fun id h name => by show (Ty.handle id h name).pushFlat = _; rw [Ty.pushFlat]
    flat_future := fun id t => by show (Ty.future id t).pushFlat = _; rw [Ty.pushFlat]
    flat_stream := fun id t => by show (Ty.stream id t).pushFlat = _; rw [Ty.pushFlat]
    flat_enum := fun id name cases => by show (Ty.enum id name cases).pushFlat = _; rw [Ty.pushFlat]
    flat_flags := fun id name names => by
      show (Ty.flags id name names).pushFlat = _; rw [Ty.pushFlat]; rfl
    flat_type := fun id t => by show (Ty.type id t).pushFlat = _; rw [Ty.pushFlat]; rfl
    flat_fixedLengthList := fun id t n => by
      show (Ty.fixedLengthList id t n).pushFlat = _; rw [Ty.pushFlat]; rfl
    flat_fields := fun ty types h => Ty.pushFlat_fields h
    flat_arms := fun ty arms h => by
      refine ⟨_, Ty.pushFlat_arms h, fun t ht => ?_⟩
      exact covers_joinArms _ _ (List.mem_map.mpr ⟨some t, ht, rfl⟩) }

theorem alignTo_zero (a : Nat) : alignTo 0 a = 0 := by
  simp [alignTo]

theorem canonical_placed : WitParser.canonical.Placed where
  fieldOffsets_one t := by
    show [(alignToArch default t.info.align, t)] = _
    have hzero : alignToArch default t.info.align = default := by
      have hdefault : (default : ArchitectureSize) = ⟨0, 0⟩ := rfl
      rw [hdefault]
      cases t.info.align with
      | pointer => simp [alignToArch, alignTo_zero]
      | bytes a => simp [alignToArch, alignTo_zero]
    rw [hzero]
  flags_words n := by
    show (flagsReprOf n).count ≤ 1 ↔ n ≤ 32
    unfold flagsReprOf
    split
    · simp [FlagsRepr.count]; omega
    · split
      · simp [FlagsRepr.count]; omega
      · split
        · simp [FlagsRepr.count]; omega
        · simp only [FlagsRepr.count, alignTo]
          omega

end WitBindgen
