import WitBindgen.Abi.Deallocate

/-!
# Schemes of the generator

Records and tuples are emitted in one way, and so are variants, options and results; the
instruction at the end, or at the start, is the type's own.
-/

namespace WitBindgen

/-- The instruction that takes a record or a tuple with fields of these types apart. -/
inductive FieldsLower : Ty → List Ty → Instruction → Prop where
  | record {id name fields} :
      FieldsLower (.record id name fields) (fields.map (·.2)) (.recordLower fields name id)
  | tuple {id types} : FieldsLower (.tuple id types) types (.tupleLower types id)

/-- The instruction that puts it together. -/
inductive FieldsLift : Ty → List Ty → Instruction → Prop where
  | record {id name fields} :
      FieldsLift (.record id name fields) (fields.map (·.2)) (.recordLift fields name id)
  | tuple {id types} : FieldsLift (.tuple id types) types (.tupleLift types id)

/-- The instruction that takes a variant, an option or a result with these arms apart. -/
inductive ArmsLower : Ty → List (Option Ty) → (List WasmType → Instruction) → Prop where
  | variant {id name cases} :
      ArmsLower (.variant id name cases) (cases.map (·.2)) (.variantLower cases name id)
  | option {id t} : ArmsLower (.option id t) [none, some t] (.optionLower t id)
  | result {id ok err} : ArmsLower (.result id ok err) [ok, err] (.resultLower ok err id)

/-- The instruction that puts it together. -/
inductive ArmsLift : Ty → List (Option Ty) → Instruction → Prop where
  | variant {id name cases} :
      ArmsLift (.variant id name cases) (cases.map (·.2)) (.variantLift cases name id)
  | option {id t} : ArmsLift (.option id t) [none, some t] (.optionLift t id)
  | result {id ok err} : ArmsLift (.result id ok err) [ok, err] (.resultLift ok err id)

namespace Generator

variable {W : WitParser} {B : Bindgen}

/-- What is shown of an emitter of flat values helps with the one that goes through memory. -/
theorem flat_and_memory {p q : Prop} (hflat : p) (hmemory : p → q) : p ∧ q :=
  ⟨hflat, hmemory hflat⟩

/-- Records and tuples are lowered and written by one scheme. -/
theorem lower_fields_eq {ty : Ty} {types : List Ty} (hf : ty.fieldTypes = some types) :
    ∃ i, FieldsLower ty types i ∧
      (lower W ty : Gen B Unit) = (do
        emit W i
        let values ← drain types.length
        lowerEach (types.map fun t => lower W t) values) ∧
      ∀ addr offset, (writeToMemory W ty addr offset : Gen B Unit) = (do
        emit W i
        writeFieldsToMemory W (types.map fun t => (t, writeToMemory W t)) addr offset) := by
  cases hf using Ty.fields_cases with
  | record id name fields =>
    exact ⟨_, .record, by rw [lower, List.map_map, List.length_map]; rfl,
      fun addr offset => by rw [writeToMemory, List.map_map]; rfl⟩
  | tuple id types' =>
    exact ⟨_, .tuple, by rw [lower], fun addr offset => by rw [writeToMemory]⟩

/-- And lifted and read by another. -/
theorem lift_fields_eq {ty : Ty} {types : List Ty} (hf : ty.fieldTypes = some types) :
    ∃ i, FieldsLift ty types i ∧
      (lift W ty : Gen B Unit) = (do
        flatForEachRecordType W ty (types.map fun t => (t, lift W t))
        emit W i) ∧
      ∀ addr offset, (readFromMemory W ty addr offset : Gen B Unit) = (do
        forEachField W (types.map fun t => (t, readFromMemory W t)) addr offset
        emit W i) := by
  cases hf using Ty.fields_cases with
  | record id name fields =>
    exact ⟨_, .record, by rw [lift, List.map_map]; rfl,
      fun addr offset => by rw [readFromMemory, List.map_map]; rfl⟩
  | tuple id types' =>
    exact ⟨_, .tuple, by rw [lift], fun addr offset => by rw [readFromMemory]⟩

/-- Records and tuples are freed field by field. -/
theorem deallocate_fields_eq (what : Deallocate) {ty : Ty} {types : List Ty}
    (hf : ty.fieldTypes = some types) :
    (deallocate W what ty : Gen B Unit) =
        flatForEachRecordType W ty (types.map fun t => (t, deallocate W what t)) ∧
      ∀ addr offset, (deallocateIndirectNeeded W what ty addr offset : Gen B Unit) =
        forEachField W (types.map fun t => (t, deallocateIndirect W what t)) addr offset := by
  cases hf using Ty.fields_cases with
  | record id name fields =>
    exact ⟨by rw [deallocate, List.map_map]; rfl,
      fun addr offset => by rw [deallocateIndirectNeeded, List.map_map]; rfl⟩
  | tuple id types' =>
    exact ⟨by rw [deallocate], fun addr offset => by rw [deallocateIndirectNeeded]⟩

/-- Variants, options and results are lowered and written by one scheme. -/
theorem lower_arms_eq {ty : Ty} {arms : List (Option Ty)} (ha : ty.arms = some arms) :
    ∃ i, ArmsLower ty arms i ∧
      (lower W ty : Gen B Unit) = (do
        let results ← lowerVariantArms W ty
          (arms.map fun o => o.map fun t => (t, lower W t))
        emit W (i results)) ∧
      ∀ addr offset, (writeToMemory W ty addr offset : Gen B Unit) = (do
        writeVariantArmsToMemory W offset addr (W.armTag ty)
          (arms.map fun o => o.map fun t => (t, writeToMemory W t))
        emit W (i [])) := by
  cases ha using Ty.arms_cases with
  | variant id name cases =>
    refine ⟨.variantLower cases name id, .variant, ?_, fun addr offset => ?_⟩
    · rw [lower]
      congr 2
      exact Ty.map_cases ..
    · rw [writeToMemory]
      congr 2
      exact Ty.map_cases ..
  | option id t =>
    exact ⟨_, .option, by rw [lower]; rfl,
      fun addr offset => by rw [writeToMemory]; rfl⟩
  | result id ok err =>
    refine ⟨.resultLower ok err id, .result, ?_, fun addr offset => ?_⟩
    · cases ok <;> cases err <;> · rw [lower]; rfl
    · cases ok <;> cases err <;> · rw [writeToMemory]; rfl

/-- And lifted and read by another. -/
theorem lift_arms_eq {ty : Ty} {arms : List (Option Ty)} (ha : ty.arms = some arms) :
    ∃ i, ArmsLift ty arms i ∧
      (lift W ty : Gen B Unit) = (do
        flatForEachVariantArm W ty true
          (arms.map fun o => o.map fun t => (t, lift W t))
        emit W i) ∧
      ∀ addr offset, (readFromMemory W ty addr offset : Gen B Unit) = (do
        readVariantArmsFromMemory W offset addr (W.armTag ty)
          (arms.map fun o => o.map fun t => (t, readFromMemory W t))
        emit W i) := by
  cases ha using Ty.arms_cases with
  | variant id name cases =>
    refine ⟨.variantLift cases name id, .variant, ?_, fun addr offset => ?_⟩
    · rw [lift]
      congr 2
      exact Ty.map_cases ..
    · rw [readFromMemory]
      congr 2
      exact Ty.map_cases ..
  | option id t =>
    exact ⟨_, .option, by rw [lift]; rfl,
      fun addr offset => by rw [readFromMemory]; rfl⟩
  | result id ok err =>
    refine ⟨.resultLift ok err id, .result, ?_, fun addr offset => ?_⟩
    · cases ok <;> cases err <;> · rw [lift]; rfl
    · cases ok <;> cases err <;> · rw [readFromMemory]; rfl

/-- Variants, options and results are freed by one scheme. -/
theorem deallocate_arms_eq (what : Deallocate) {ty : Ty} {arms : List (Option Ty)} (ha : ty.arms = some arms) :
    (deallocate W what ty : Gen B Unit) = (do
        flatForEachVariantArm W ty false (arms.map fun o => o.map fun t =>
          (t, deallocate W what t))
        emit W (.guestDeallocateVariant arms.length)) ∧
      ∀ addr offset, (deallocateIndirectNeeded W what ty addr offset : Gen B Unit) = (do
        deallocateIndirectVariant W offset addr (W.armTag ty)
          (arms.map fun o => o.map fun t => (t, deallocateIndirect W what t))
        emit W (.guestDeallocateVariant arms.length)) := by
  cases ha using Ty.arms_cases with
  | variant id name cases =>
    refine ⟨?_, fun addr offset => ?_⟩
    · rw [deallocate, List.length_map]
      congr 2
      exact Ty.map_cases ..
    · rw [deallocateIndirectNeeded, List.length_map]
      congr 2
      exact Ty.map_cases ..
  | option id t =>
    exact ⟨by rw [deallocate]; rfl, fun addr offset => by rw [deallocateIndirectNeeded]; rfl⟩
  | result id ok err =>
    refine ⟨?_, fun addr offset => ?_⟩
    · cases ok <;> cases err <;> · rw [deallocate]; rfl
    · cases ok <;> cases err <;> · rw [deallocateIndirectNeeded]; rfl

/-- A property of the arms' types, as one of the arms with their emitters. -/
theorem arms_members {γ : Type} {arms : List (Option Ty)} {f : Ty → γ} {Q : γ → Prop}
    (h : ∀ t, some t ∈ arms → Q (f t)) :
    ∀ t g, some (t, g) ∈ (arms.map fun o => o.map fun t => (t, f t)) → Q g := by
  intro t g hmem
  obtain ⟨o, ho, hg⟩ := List.mem_map.mp hmem
  cases o with
  | none => cases hg
  | some u => cases hg; exact h _ ho

end Generator

end WitBindgen
