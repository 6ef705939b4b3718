import WitBindgen.Machine.Calls

/-!
# The parameter area of an export

Parameters that are too many for the core signature come in an area that the caller
allocated. What an export records reads every parameter out of it and calls the user's
function; only a synchronous export then gives the area back. An asynchronous one records
nothing that frees anything, and the area stays allocated.
-/

namespace WitBindgen

open Heap Code Generator

/-! ## Reading the area -/

section
variable {M : Machine} {c : Ty → Bool} {func : Function}

/-- What an export does up to the point where its parameters are no longer needed: it reads
them out of the area at `a` and calls the user's function. -/
def enterExport (M : Machine) (func : Function) (a : Nat) : Exec Event (Option Val) := do
  let vs ← (offsetsFrom default func.paramTypes).mapM fun y =>
    load M.toTarget y.2 (a + y.1.eval M.p)
  note (.called func.name vs)
  M.callInterface func vs

/-- The block the caller allocated for the parameters. -/
def paramArea (M : Machine) (func : Function) (a : Nat) : Heap.Block :=
  ⟨a, (recordInfo (func.paramTypes.map Ty.info)).size.eval M.p,
    (recordInfo (func.paramTypes.map Ty.info)).align.eval M.p⟩

theorem forEachParam_reads (hW : M.W = .canonical) {params : List Ty}
    (h : ∀ t ∈ params, ReadOk M c none t) (offset : ArchitectureSize) (addr n : Nat) :
    ∃ code outs n', outs.length = params.length ∧
      Emits none (forEachParam M.W (params.map fun t => (t, readFromMemory M.W t addr)) offset :
        RGen M.W c Unit) [] n () outs code n' ∧
      ∀ ctx env a, env.length = n → env[addr]? = some (.ptr a) →
        Computes M.step code ctx env n' ((offsetsFrom offset params).mapM fun y =>
          load M.toTarget y.2 (a + y.1.eval M.p)) fun env' vs =>
            lookup env' outs = some (vs.map .val) := by
  induction params generalizing offset n with
  | nil =>
    refine ⟨[], [], n, rfl, Emits.pure, ?_⟩
    rintro ctx env a rfl _
    exact Computes.nil (lookup_nil env)
  | cons t params ih =>
    have halign : M.W.alignToArch offset (M.W.align t) = alignToArch offset t.info.align := by
      rw [hW]; rfl
    have hsize : M.W.size t = t.info.size := by rw [hW]; rfl
    obtain ⟨code₁, y, n₁, hemits₁, hcomp₁⟩ :=
      h t List.mem_cons_self addr n (alignToArch offset t.info.align)
    obtain ⟨code₂, ys, n₂, hlen₂, hemits₂, hcomp₂⟩ :=
      ih (fun u hu => h u (List.mem_cons_of_mem _ hu))
        (alignToArch offset t.info.align + t.info.size) n₁
    refine ⟨code₁ ++ code₂, [y] ++ ys, n₂, by simp [hlen₂], ?_, ?_⟩
    · rw [List.map_cons, forEachParam, halign, hsize]
      exact hemits₁.bind (hemits₂.above [y])
    · intro ctx env a hn haddr
      rw [offsetsFrom, List.mapM_cons]
      refine Computes.append (hcomp₁ ctx env a hn haddr) fun env₁ v hpre₁ henv₁ hv => ?_
      rw [← map_eq_pure_bind]
      exact (hcomp₂ ctx env₁ a henv₁ (getElem?_mono hpre₁ haddr)).map fun env₂ vs hpre₂ _ hvs =>
        lookup_cons (getElem?_mono hpre₂ hv) hvs

/-- The arguments of an export with indirect parameters. -/
theorem exportArgs_reads (hW : M.W = .canonical) (hM : M.W.Lawful M.p)
    (hparams : ∀ t ∈ func.paramTypes, t.Valid) {sig : WasmSignature}
    (hind : sig.indirectParams = true) : ∃ code outs n', outs.length = func.params.length ∧
      Emits none (exportArgs M.W func sig : RGen M.W c Unit) [] 0 () outs code n' ∧
      ∀ ctx a, ctx.args[0]? = some (RVal.ptr a) →
        Computes M.step code ctx [] n' ((offsetsFrom default func.paramTypes).mapM fun y =>
          load M.toTarget y.2 (a + y.1.eval M.p)) fun env' vs =>
            lookup env' outs = some (vs.map .val) := by
  have hread : ∀ t ∈ func.paramTypes, ReadOk M c none t := fun t ht =>
    (lift_and_read hM (hparams t ht).supported).2
  obtain ⟨code, outs, n', hlen, hemits, hcomp⟩ := forEachParam_reads hW hread default 0 1
  have harg : Emits none (emit M.W (.getArg 0) : RGen M.W c Unit) [] 0 () [0]
    [Code.Stmt.mk (Op.inst (.getArg 0)) [] []] (0 + 1) := Emits.emit rfl rfl rfl
  refine ⟨[Code.Stmt.mk (Op.inst (.getArg 0)) [] []] ++ code, outs, n', ?_, ?_, ?_⟩
  · rw [hlen, Function.paramTypes, List.length_map]
  · rw [exportArgs, hind, if_pos rfl]
    exact harg.bind ((Emits.pop [] 0).then hemits)
  · intro ctx a ha
    have hget : M.instSem (.getArg 0) ctx [] [] = pure [.ptr a] := by
      show (require ctx.args[0]? >>= fun x => pure [x]) = _
      rw [ha]
      rfl
    have hempty : ([] : List RVal).length = 0 := rfl
    exact Computes.append (computes_value hempty hget) fun env₁ _ _ hlen₁ hptr => hcomp ctx env₁ a hlen₁ hptr

/-! ## Calling and freeing -/

/-- The user's function gives back a value where its type has a result. -/
def Returns (M : Machine) (func : Function) : Prop :=
  ∀ vs w r w', M.callInterface func vs w = .ok (r, w') → r.isSome = func.result.isSome

theorem callInterface_computes (harity : Returns M func) {ops : List Nat} {ctx : Ctx}
    {env : List RVal} {vs : List Val} {n : Nat} (async_ : Bool) (hn : env.length = n)
    (hops : lookup env ops = some (vs.map .val)) :
    Computes M.step [Code.Stmt.mk (Op.inst (.callInterface func async_)) ops []] ctx env
      (n + if func.result.isSome then 1 else 0)
      (note (.called func.name vs) >>= fun _ => M.callInterface func vs) fun _ _ => True := by
  refine (computes_inst (f := fun r => r.toList.map .val) hn hops ?_).mono fun _ _ _ _ _ => trivial
  have hsem : M.instSem (.callInterface func async_) ctx [] (vs.map .val) =
      (require ((vs.map RVal.val).mapM RVal.asVal) >>= fun vs =>
        note (.called func.name vs) >>= fun _ => M.callInterface func vs >>= fun r =>
          pure (r.toList.map .val)) := rfl
  rw [List.map_nil, hsem, mapM_asVal, require_some, pure_bind]
  refine (Agree.refl _).bind ?_
  rintro u _ rfl w
  rw [run_bind]
  cases hcall : M.callInterface func vs w with
  | error e => rfl
  | ok p =>
    refine ⟨rfl, ?_, rfl⟩
    have hr := harity vs w p.1 p.2 hcall
    cases hp : p.1 <;> rw [hp] at hr <;> simp [← hr]

theorem freeParamsCode_computes (func : Function) {sig : WasmSignature}
    (hind : sig.indirectParams = true) {ctx : Ctx} {env : List RVal} {a n : Nat}
    (ha : ctx.args[0]? = some (RVal.ptr a)) (hn : env.length = n) :
    Computes M.step (freeParamsCode .canonical func sig false n) ctx env (n + 1)
      (release (paramArea M func a)) fun _ _ => True := by
  have hget : M.instSem (.getArg 0) ctx [] [] = pure [.ptr a] := by
    show (require ctx.args[0]? >>= fun x => pure [x]) = _
    rw [ha]
    rfl
  have hcode : freeParamsCode .canonical func sig false n =
      [Code.Stmt.mk (Op.inst (.getArg 0)) [] []] ++ [Code.Stmt.mk (Op.inst (.guestDeallocate
        (recordInfo (func.paramTypes.map Ty.info)).size
        (recordInfo (func.paramTypes.map Ty.info)).align)) [n] []] := by
    rw [freeParamsCode, hind]
    rfl
  rw [hcode, ← pure_bind () fun _ => release (paramArea M func a)]
  refine Computes.append (computes_value hn hget) fun env₁ _ _ hlen₁ hptr => ?_
  refine computes_effect hlen₁ (lookup_one hptr) ?_
  show (require ((RVal.ptr a).bits .pointer) >>= fun b => release ⟨b, _, _⟩ >>= fun _ =>
    pure []) = _
  rw [RVal.bits_ptr, require_some, pure_bind]
  rfl

/-- The recorded code of an export disposes of its parameter area: up to a deallocation it
reads the parameters out of the area, calls the user's function and releases the area with
the size and the alignment of the parameters' record, once; after that nothing reads
memory and nothing is freed. -/
def FreesParams (M : Machine) (func : Function) (code : List CStmt) : Prop :=
  ∃ before pos after n,
    code = before ++ Code.Stmt.mk (Op.inst (.guestDeallocate (recordInfo (func.paramTypes.map Ty.info)).size
      (recordInfo (func.paramTypes.map Ty.info)).align)) [pos] [] :: after ∧
    (∀ op ∈ codeOps before ++ codeOps after, op.Sat (·.frees = false)) ∧
    (∀ op ∈ codeOps after, op.Sat (·.reads = false)) ∧
    ∀ ctx a, ctx.args[0]? = some (RVal.ptr a) →
      Computes M.step (before ++ [Code.Stmt.mk (Op.inst (.guestDeallocate
        (recordInfo (func.paramTypes.map Ty.info)).size
        (recordInfo (func.paramTypes.map Ty.info)).align)) [pos] []]) ctx [] n
        (enterExport M func a >>= fun _ => release (paramArea M func a)) fun _ _ => True

/-! ## Every export -/

/-- Why a machine is asked for: its target is the canonical one, and the user's function
returns what its type says. -/
structure Hosts (M : Machine) (func : Function) : Prop where
  canonical : M.W = .canonical
  lawful : M.W.Lawful M.p
  returns : Returns M func

theorem Records.unique {variant : AbiVariant} {liftLower : LiftLower} {async_ : Bool}
    {code code' : List CStmt} (h : Records .canonical c variant liftLower func async_ code)
    (h' : Records .canonical c variant liftLower func async_ code') : code = code' := by
  obtain ⟨s, n, hrun, -, hs⟩ := h
  obtain ⟨s', n', hrun', -, hs'⟩ := h'
  rw [hrun] at hrun'
  obtain rfl : s = s' := congrArg Prod.snd (Except.ok.inj hrun')
  rw [hs] at hs'
  exact congrArg (fun r : RecorderState => r.cur.code) hs'

/-- What an export with indirect parameters records: the area is read and the function
called; then come the instructions that free it, if any, and a rest that reads and frees
nothing. -/
theorem export_records (hM : Hosts M func) {variant : AbiVariant} {async_ : Bool}
    (hpassed : Passed variant .liftArgsLowerResults async_)
    (hparams : ∀ t ∈ func.paramTypes, t.Valid) (hresult : ∀ t ∈ func.result, t.Valid)
    (hind : (wasmSignature variant func).indirectParams = true) : ∃ before rest n,
    Records .canonical c variant .liftArgsLowerResults func async_ (before ++
      (freeParamsCode .canonical func (wasmSignature variant func) async_ n ++ rest)) ∧
    (∀ op ∈ codeOps before, op.Sat (·.frees = false)) ∧
    (∀ op ∈ codeOps rest, op.Sat fun i => i.reads = false ∧ i.frees = false) ∧
    ∀ ctx a, ctx.args[0]? = some (RVal.ptr a) →
      Computes M.step before ctx [] n (enterExport M func a) fun _ _ => True := by
  obtain ⟨⟨W, p, A⟩, area, callWasm, callInterface⟩ := M
  obtain rfl : W = .canonical := hM.canonical
  obtain ⟨argsCode, ops, n₁, hops, hargs, hcomp⟩ := exportArgs_reads
    (M := ⟨⟨.canonical, p, A⟩, area, callWasm, callInterface⟩) (c := c) rfl hM.lawful
    hparams hind
  obtain ⟨rest, hrest, hrun⟩ := call_export canonical_lawful canonical_signatures hpassed hresult hops hargs
  refine ⟨argsCode ++ [Code.Stmt.mk (Op.inst (.callInterface func async_)) ops []], rest,
    n₁ + if func.result.isSome then 1 else 0, ?_, ?_, hrest, ?_⟩
  · rw [List.append_assoc]
    exact hrun
  -- lifting frees nothing
  · have hkeeps : Steady (fun _ => RecorderState.All (·.frees = false)) (fun _ => True)
        (exportArgs .canonical func (wasmSignature variant func) : RGen .canonical c Unit) := by
      rw [exportArgs, hind, if_pos rfl]
      exact (Keeps.emit (P := (·.frees = false)) (recorder_stable ..) rfl rfl).and_then fun _ =>
        Keeps.readParamsFromMemory (recorder_stable ..)
          fun _ hi _ => Instruction.frees_of_lifting hi
    intro op hop
    rw [codeOps_append] at hop
    rcases List.mem_append.mp hop with hop | hop
    · exact hargs.sat hkeeps op hop
    · obtain rfl := List.mem_singleton.mp hop
      rfl
  · intro ctx a ha
    exact Computes.append (hcomp ctx a ha) fun env₁ vs _ hlen hvs =>
      callInterface_computes hM.returns async_ hlen hvs

theorem sync_frees (hM : Hosts M func) {variant : AbiVariant}
    (hpassed : Passed variant .liftArgsLowerResults false)
    (hparams : ∀ t ∈ func.paramTypes, t.Valid) (hresult : ∀ t ∈ func.result, t.Valid)
    (hind : (wasmSignature variant func).indirectParams = true) :
    ∃ code, Records .canonical c variant .liftArgsLowerResults func false code ∧
      FreesParams M func code := by
  obtain ⟨before, rest, n, hrun, hbefore, hrest, hcomp⟩ :=
    export_records (c := c) hM hpassed hparams hresult hind
  have hfree := fun ctx a (ha : ctx.args[0]? = some (RVal.ptr a)) =>
    Computes.append (hcomp ctx a ha) fun env₁ _ _ hlen _ =>
      freeParamsCode_computes func hind ha hlen
  -- a synchronous export has the code that frees
  have hcode : freeParamsCode .canonical func (wasmSignature variant func) false n =
      [Code.Stmt.mk (Op.inst (.getArg 0)) [] []] ++ [Code.Stmt.mk (Op.inst (.guestDeallocate
        (recordInfo (func.paramTypes.map Ty.info)).size
        (recordInfo (func.paramTypes.map Ty.info)).align)) [n] []] := by
    rw [freeParamsCode, hind]
    rfl
  rw [hcode] at hrun hfree
  refine ⟨_, hrun, before ++ [Code.Stmt.mk (Op.inst (.getArg 0)) [] []], n, rest, n + 1, by simp, ?_, ?_, ?_⟩
  · intro op hop
    rw [codeOps_append] at hop
    rcases List.mem_append.mp hop with hop | hop
    · rcases List.mem_append.mp hop with hop | hop
      · exact hbefore op hop
      · obtain rfl := List.mem_singleton.mp hop
        rfl
    · have hsat := hrest op hop
      cases op with
      | inst i => exact hsat.2
      | returnPointer size align => trivial
  · intro op hop
    have hsat := hrest op hop
    cases op with
    | inst i => exact hsat.1
    | returnPointer size align => trivial
  · intro ctx a ha
    rw [List.append_assoc]
    exact hfree ctx a ha

/-- An asynchronous export frees nothing at all: the area it read stays allocated. -/
theorem async_frees_nothing (hM : Hosts M func) {variant : AbiVariant}
    (hpassed : Passed variant .liftArgsLowerResults true)
    (hparams : ∀ t ∈ func.paramTypes, t.Valid) (hresult : ∀ t ∈ func.result, t.Valid)
    (hind : (wasmSignature variant func).indirectParams = true) {code : List CStmt}
    (hcode : Records .canonical c variant .liftArgsLowerResults func true code) :
    ∀ op ∈ codeOps code, op.Sat (·.frees = false) := by
  obtain ⟨before, rest, n, hrun, hbefore, hrest, -⟩ :=
    export_records (c := c) hM hpassed hparams hresult hind
  have hfree : freeParamsCode .canonical func (wasmSignature variant func) true n = [] := by
    rw [freeParamsCode, hind]
    rfl
  rw [hfree, List.nil_append] at hrun
  obtain rfl := hcode.unique hrun
  intro op hop
  rw [codeOps_append] at hop
  rcases List.mem_append.mp hop with hop | hop
  · exact hbefore op hop
  · have hsat := hrest op hop
    cases op with
    | inst i => exact hsat.2
    | returnPointer size align => trivial

theorem not_freesParams_of_frees_nothing {code : List CStmt}
    (h : ∀ op ∈ codeOps code, op.Sat (·.frees = false)) : ¬ FreesParams M func code := by
  rintro ⟨before, pos, after, n, rfl, -⟩
  have hsat := h (.inst (.guestDeallocate (recordInfo (func.paramTypes.map Ty.info)).size
    (recordInfo (func.paramTypes.map Ty.info)).align)) (by simp [codeOps_append, codeOps, stmtOps])
  cases hsat

/-- An export with indirect parameters disposes of their area if and only if it is
synchronous. -/
theorem params_freed_iff (hM : Hosts M func) {variant : AbiVariant} {async_ : Bool}
    (hpassed : Passed variant .liftArgsLowerResults async_)
    (hparams : ∀ t ∈ func.paramTypes, t.Valid) (hresult : ∀ t ∈ func.result, t.Valid)
    (hind : (wasmSignature variant func).indirectParams = true) :
    (∃ code, Records .canonical c variant .liftArgsLowerResults func async_ code ∧
      FreesParams M func code) ↔ async_ = false := by
  constructor
  · rintro ⟨code, hcode, hfrees⟩
    cases async_ with
    | false => rfl
    | true =>
      exact absurd hfrees (not_freesParams_of_frees_nothing
        (async_frees_nothing hM hpassed hparams hresult hind hcode))
  · rintro rfl
    exact sync_frees hM hpassed hparams hresult hind

end

/-! ## Nine names -/

/-- `collect: func(names: tuple<string, ..>)` with nine strings, eighteen core types. -/
def collect : Function :=
  ⟨"collect", .freestanding, [("names", .tuple 0 (List.replicate 9 .string))], none⟩

/-- A 32-bit guest with a function that returns nothing. -/
def quietGuest : Machine where
  toTarget := bumpMachine.toTarget
  returnArea := bumpMachine.returnArea
  callWasm := bumpMachine.callWasm
  callInterface _ _ := pure none

theorem quietGuest_hosts : Hosts quietGuest collect where
  canonical := rfl
  lawful := bumpMachine_lawful
  returns _ _ _ _ h := by cases h; rfl

theorem collect_params : ∀ t ∈ collect.paramTypes, t.Valid := by
  intro t ht
  obtain rfl : t = .tuple 0 (List.replicate 9 .string) := by
    simpa [collect, Function.paramTypes] using ht
  refine .fields rfl fun u hu => ?_
  rw [(List.mem_replicate.mp hu).2]
  exact .string

theorem collect_indirect (variant : AbiVariant) :
    (wasmSignature variant collect).indirectParams = true := by
  cases variant <;> simp [wasmSignature, flatParams, Function.paramTypes, collect, Ty.pushFlat,
    List.replicate, maxFlatParams, maxFlatAsyncParams]

/-- A synchronous export of it gives its area back. -/
theorem collect_freed :
    (∃ code, Records .canonical (fun _ => false) .guestExport .liftArgsLowerResults collect false code ∧
      FreesParams quietGuest collect code) ↔ false = false :=
  params_freed_iff quietGuest_hosts .exported collect_params nofun (collect_indirect _)

/-- An asynchronous one does not. -/
theorem collect_leaks :
    ¬ ∃ code, Records .canonical (fun _ => false) .guestExportAsync .liftArgsLowerResults collect true code ∧
      FreesParams quietGuest collect code := by
  rintro ⟨code, hcode, hfrees⟩
  exact not_freesParams_of_frees_nothing (async_frees_nothing quietGuest_hosts .exportedAsync
    collect_params nofun (collect_indirect _) hcode) hfrees

end WitBindgen
