import WitBindgen.Abi.Keeps

/-!
# The phases of a call

`call` puts the arguments in place, makes the call, and deals with the result. What a backend
keeps through each of these phases follows from what it keeps through the types involved.
-/

namespace WitBindgen

open Generator

/-! ## The checks around a call -/

section
variable {W : WitParser} {B : Bindgen} {func : Function} {variant : AbiVariant} {async_ : Bool}
  {bindgen : B.State} {s : GenState B}

/-- The checks after an arm of `call` leave what it did, and that is an empty stack. -/
theorem checks_inv {g : Gen B Unit} (h : (assertNoRealloc >>= fun _ => g >>= fun _ =>
      assertNoRealloc >>= fun _ => assertEmptyStack) (GenState.new bindgen) = .ok ((), s)) :
    g (GenState.new bindgen) = .ok ((), s) ∧ s.stack = [] := by
  obtain ⟨_, s₀, h₀, h⟩ := bind_inv h
  obtain ⟨_, s₁, h₁, h⟩ := bind_inv h
  obtain ⟨_, s₂, h₂, h₃⟩ := bind_inv h
  cases h₀
  obtain rfl : s₁ = s₂ := by
    unfold assertNoRealloc at h₂
    split at h₂ <;> cases h₂
    rfl
  obtain ⟨empty, s₃, h₃, h₄⟩ := bind_inv h₃
  cases h₃
  unfold assert at h₄
  split at h₄ <;> cases h₄
  next hempty => exact ⟨h₁, List.eq_nil_of_length_eq_zero (eq_of_beq hempty)⟩

theorem call_export_inv (h : call W variant .liftArgsLowerResults func async_ bindgen =
    .ok ((), s)) : callLiftArgs W func variant (W.wasmSignature variant func)
      (callRealloc variant .liftArgsLowerResults async_) async_ (GenState.new bindgen) =
        .ok ((), s) := (checks_inv h).1

theorem call_export_stack (h : call W variant .liftArgsLowerResults func async_ bindgen =
    .ok ((), s)) : s.stack = [] := (checks_inv h).2

theorem call_import_inv (h : call W variant .lowerArgsLiftResults func async_ bindgen =
    .ok ((), s)) : callLowerArgs W func variant (W.wasmSignature variant func)
      (callRealloc variant .lowerArgsLiftResults async_) async_ (GenState.new bindgen) =
        .ok ((), s) := (checks_inv h).1

end

/-! ## Exports -/

/-- The arguments of an export, from memory or from the core parameters. -/
def exportArgs (W : WitParser) {B : Bindgen} (func : Function) (sig : WasmSignature) :
    Gen B Unit :=
  if sig.indirectParams then do
    emit W (.getArg 0)
    readParamsFromMemory W func.paramTypes
  else liftArgs W maxFlatParams func.paramTypes 0

/-- What becomes of the result of an export, up to handing it over. -/
def exportResults (W : WitParser) {B : Bindgen} (func : Function) (variant : AbiVariant)
    (sig : WasmSignature) (realloc : Realloc) (async_ toMemory : Bool) : Gen B Unit := do
  freeParams W func variant sig async_
  setRealloc (some realloc)
  lowerResults W func variant sig toMemory

section
variable {W : WitParser} {B : Bindgen} {func : Function} {variant : AbiVariant}
  {sig : WasmSignature} {async_ : Bool}

theorem callLiftArgs_eq (hvariant : variant = .guestExport ∨ variant = .guestExportAsync)
    (realloc : Realloc) : ∃ flatResults toMemory, (flatResults.isSome = async_) ∧
    (async_ = false → toMemory = sig.retptr) ∧
    (callLiftArgs W func variant sig realloc async_ : Gen B Unit) = (do
      let _ ← exportArgs W func sig
      emit W (.callInterface func async_)
      exportResults W func variant sig realloc async_ toMemory
      returnResults W func variant sig flatResults async_
      setRealloc none) := by
  refine ⟨asyncFlatResults W func maxFlatParams async_,
    (asyncFlatResults W func maxFlatParams async_).elim sig.retptr Option.isNone, by cases async_ <;> rfl, by rintro rfl; rfl, ?_⟩
  have hmax : (if variant = .guestImportAsync && async_ then maxFlatAsyncParams
      else maxFlatParams) = maxFlatParams := by
    rcases hvariant with rfl | rfl <;> rfl
  rw [callLiftArgs, hmax, exportArgs]
  cases sig.indirectParams <;> simp [exportResults]
  all_goals cases asyncFlatResults W func maxFlatParams async_ <;> rfl

/-- An export hands its result over with one instruction. -/
theorem returnResults_eq (hvariant : variant = .guestExport ∨ variant = .guestExportAsync)
    {flatResults : Option (Option (List WasmType))} (hflat : flatResults.isSome = async_) :
    ∃ i, (returnResults W func variant sig flatResults async_ : Gen B Unit) = emit W i ∧
      ((async_ = true ∧ ∃ name tys, i = .asyncTaskReturn name tys) ∨
        async_ = false ∧ i = .return_ sig.results.length func) := by
  cases flatResults with
  | none => cases hflat; exact ⟨_, rfl, .inr ⟨rfl, rfl⟩⟩
  | some results =>
    cases hflat
    rcases hvariant with rfl | rfl <;> exact ⟨_, rfl, .inl ⟨rfl, _, _, rfl⟩⟩

end

/-! ## Imports -/

/-- The arguments of an import, in memory or as core values. -/
def importArgs (W : WitParser) {B : Bindgen} (func : Function) (sig : WasmSignature) :
    Gen B Unit :=
  if sig.indirectParams then do
    let ptr ← paramsArea W .guestImport (W.record func.paramTypes)
    lowerToMemory W func.paramTypes ptr
  else lowerArgs W func.paramTypes

/-- Where the host is to put the result of an import. -/
def importArea (W : WitParser) {B : Bindgen} (func : Function) (sig : WasmSignature) :
    Gen B Unit :=
  if sig.retptr then do
    let ptr ← returnPointer (W.params func.result).size (W.params func.result).align
    setReturnPointer (some ptr)
    push ptr
  else pure ()

/-- What an import does up to its call. -/
def importCall (W : WitParser) {B : Bindgen} (func : Function) (sig : WasmSignature) :
    Gen B Unit := do
  setRealloc (some .none)
  importArgs W func sig
  setRealloc none
  importArea W func sig
  assert ((← stackLen) = sig.params.length)

theorem callLowerArgs_eq {W : WitParser} {B : Bindgen} (func : Function) (sig : WasmSignature) :
    (callLowerArgs W func .guestImport sig .none false : Gen B Unit) = (do
      importCall W func sig
      emit W (.callWasm func.name sig)
      liftResults W func .guestImport sig false
      emit W (.return_ (if func.result.isSome then 1 else 0) func)) := by
  cases hind : sig.indirectParams <;> cases hret : sig.retptr <;>
    simp [callLowerArgs, importCall, importArgs, importArea, hind, hret]

theorem liftResults_retptr {W : WitParser} {B : Bindgen} {func : Function} {sig : WasmSignature}
    (hret : sig.retptr = true) : (liftResults W func .guestImport sig false : Gen B Unit) = (do
      assert sig.results.isEmpty
      let ptr ← takeReturnPointer
      readResultsFromMemory W func.result ptr default
      emit W (.flush (if func.result.isSome then 1 else 0))) := by
  simp [liftResults, hret]

theorem lowerResults_flat {W : WitParser} {B : Bindgen} {func : Function} {sig : WasmSignature}
    {variant : AbiVariant} : (lowerResults W func variant sig false : Gen B Unit) =
      func.result.elim (pure ()) (lower W) := by
  rw [lowerResults]
  cases func.result <;> rfl

theorem lowerResults_memory {W : WitParser} {B : Bindgen} {func : Function} {sig : WasmSignature}
    {variant : AbiVariant} (hvariant : variant = .guestExport ∨ variant = .guestExportAsync) :
    (lowerResults W func variant sig true : Gen B Unit) = (do
      let ptr ← returnPointer (W.params func.result).size (W.params func.result).align
      writeParamsToMemory W func.result.toList ptr default
      push ptr) := by
  rcases hvariant with rfl | rfl <;> cases hret : sig.retptr <;> simp [lowerResults, hret]

/-! ## What the phases keep -/

namespace Generator.Keeps

variable {W : WitParser} {B : Bindgen} {P : Instruction → Prop}
  {I : List Nat → B.State → Prop} {Q : B.Operand → Prop} {func : Function} {sig : WasmSignature}
  {params : List Ty}

section
variable (hI : Stable B P I Q) (hget : ∀ nth, P (.getArg nth))
include hI hget

theorem getArgs (offset n : Nat) : Steady I Q (getArgs W offset n : Gen B Unit) :=
  forM fun _ _ => emit hI (hget _) rfl

theorem liftArgs (hlift : ∀ t ∈ params, Steady I Q (lift W t : Gen B Unit)) (maxFlat offset : Nat) :
    Steady I Q (liftArgs W maxFlat params offset : Gen B Unit) := by
  induction params generalizing offset with
  | nil => exact done
  | cons t params ih =>
    exact (orPanic _ _).and_then fun _ => (getArgs hI hget _ _).and_then fun _ =>
      (hlift t List.mem_cons_self).and_then fun _ =>
        ih (fun u hu => hlift u (List.mem_cons_of_mem _ hu)) _

theorem lowerArgs (hlower : ∀ t ∈ params, Steady I Q (lower W t : Gen B Unit)) :
    Steady I Q (lowerArgs W params : Gen B Unit) :=
  forM fun x hx => (emit hI (hget _) rfl).and_then fun _ =>
    hlower x.1 (List.fst_mem_of_mem_zipIdx hx)

theorem lowerToMemory {ptr : B.Operand} (hptr : Q ptr) (hwrite : ∀ t ∈ params, ∀ addr offset,
      Q addr → Steady I Q (writeToMemory W t addr offset : Gen B Unit)) :
    Steady I Q (lowerToMemory W params ptr : Gen B Unit) := by
  refine (forEachParam (fun p hp offset => ?_) _).and_then fun _ => push hptr
  obtain ⟨x, hx, rfl⟩ := List.mem_map.mp hp
  exact (emit hI (hget _) rfl).and_then fun _ =>
    hwrite x.1 (List.fst_mem_of_mem_zipIdx hx) _ _ hptr

theorem importCall (hlower : ∀ t ∈ func.paramTypes, Steady I Q (lower W t : Gen B Unit) ∧
      ∀ addr offset, Q addr → Steady I Q (writeToMemory W t addr offset : Gen B Unit)) :
    Steady I Q (importCall W func sig : Gen B Unit) := by
  have hargs : Steady I Q (importArgs W func sig : Gen B Unit) :=
    ite ((returnPointer hI _ _).bind fun _ hptr =>
        lowerToMemory hI hget hptr fun t ht => (hlower t ht).2)
      (lowerArgs hI hget fun t ht => (hlower t ht).1)
  have harea : Steady I Q (importArea W func sig : Gen B Unit) :=
    ite ((returnPointer hI _ _).bind fun _ hptr => (setReturnPointer _).and_then fun _ =>
      push hptr) done
  exact (setRealloc _).and_then fun _ => hargs.and_then fun _ => (setRealloc _).and_then fun _ =>
    harea.and_then fun _ => stackLen.and_then fun _ => assert _

omit hget in
/-- The results of an import, for a backend that asks nothing of operands. -/
theorem liftResults (hQ : ∀ x, Q x) (hflush : ∀ n, P (.flush n))
    (hlift : ∀ t ∈ func.result, Steady I Q (lift W t : Gen B Unit) ∧
      ∀ addr offset, Q addr → Steady I Q (readFromMemory W t addr offset : Gen B Unit)) :
    Steady I Q (liftResults W func .guestImport sig false : Gen B Unit) := by
  cases hret : sig.retptr with
  | true =>
    rw [liftResults_retptr hret]
    refine (assert _).and_then fun _ => takeReturnPointer.and_then fun ptr =>
      (forEachField (fun m hm => ?_) (hQ ptr) _).and_then fun _ => emit hI (hflush _) rfl
    obtain ⟨t, ht, rfl⟩ := List.mem_map.mp hm
    exact (hlift t (Option.mem_toList.mp ht)).2
  | false =>
    rw [Generator.liftResults, if_neg (by rw [hret]; exact Bool.false_ne_true)]
    cases hr : func.result with
    | none => exact done
    | some t => exact (hlift t hr).1

theorem exportResults {variant : AbiVariant}
    (hvariant : variant = .guestExport ∨ variant = .guestExportAsync) (realloc : Realloc)
    (async_ toMemory : Bool) (hfree : ∀ size align, P (.guestDeallocate size align))
    (hlower : ∀ t ∈ func.result, Steady I Q (lower W t : Gen B Unit) ∧
      ∀ addr offset, Q addr → Steady I Q (writeToMemory W t addr offset : Gen B Unit)) :
    Steady I Q (exportResults W func variant sig realloc async_ toMemory : Gen B Unit) := by
  have hparams : Steady I Q (freeParams W func variant sig async_ : Gen B Unit) :=
    ite ((emit hI (hget _) rfl).and_then fun _ => emit hI (hfree _ _) rfl) done
  refine hparams.and_then fun _ => (setRealloc _).and_then fun _ => ?_
  cases toMemory with
  | false =>
    rw [lowerResults_flat]
    cases hr : func.result with
    | none => exact done
    | some t => exact (hlower t hr).1
  | true =>
    rw [lowerResults_memory hvariant]
    refine (returnPointer hI _ _).bind fun ptr hptr =>
      (writeFieldsToMemory (fun m hm => ?_) hptr _).and_then fun _ => push hptr
    obtain ⟨t, ht, rfl⟩ := List.mem_map.mp hm
    exact (hlower t (Option.mem_toList.mp ht)).2

end

end Generator.Keeps

end WitBindgen
