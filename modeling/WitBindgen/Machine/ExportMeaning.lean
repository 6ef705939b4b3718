import WitBindgen.Machine.ParamArea

/-!
# What an export means

The recorded code of an export, run on the core values the host passes, lifts the arguments,
calls the user's function, gives the parameter area back and lowers the result. This holds
for synchronous and asynchronous exports, for direct and indirect parameters and results, and
in any world: the code fails where its meaning does.
-/

namespace WitBindgen

open Heap Code Generator

/-! ## Lists of values -/

section
variable (T : Target)

/-- Lift a list of values from core values side by side. -/
def liftValues : List Ty → List Word → Exec Event (List Val)
  | [], _ => pure []
  | t :: types, ws => do
      let v ← liftFlat T t (ws.take (T.W.pushFlat t).length)
      let vs ← liftValues types (ws.drop (T.W.pushFlat t).length)
      pure (v :: vs)

/-- Lower a list of values to core values side by side. -/
def lowerValues : List Ty → List Val → Exec Event (List Word)
  | t :: types, v :: vs => do
      let ws ← lowerFlat T t v
      let rest ← lowerValues types vs
      pure (ws ++ rest)
  | _, _ => pure []

/-- Load the fields of a record at `a`. -/
def loadValues (types : List Ty) (a : Nat) : Exec Event (List Val) :=
  (offsetsFrom default types).mapM fun y => load T y.2 (a + y.1.eval T.p)

def storeValues (types : List Ty) (vs : List Val) (a : Nat) : Exec Event Unit :=
  ((offsetsFrom default types).zip vs).forM fun y => store T y.1.2 y.2 (a + y.1.1.eval T.p)

end

/-! ## The meaning of an export -/

section
variable (M : Machine) (func : Function) (sig : WasmSignature) (async_ : Bool)

/-- An area for a record of `types`. -/
def areaFor (types : List Ty) : Exec Event Nat :=
  M.returnArea ((recordInfo (types.map Ty.info)).size.eval M.p)
    ((recordInfo (types.map Ty.info)).align.eval M.p)

/-- Values as core values, or as a pointer to where they are. -/
def passValues (types : List Ty) (indirect : Bool) (vs : List Val) : Exec Event (List Word) :=
  if indirect then do
    let a ← areaFor M types
    storeValues M.toTarget types vs a
    pure [⟨.pointer, a⟩]
  else lowerValues M.toTarget types vs

def exportParams (ws : List Word) : Exec Event (List Val) :=
  if sig.indirectParams then do
    let a ← require (bitsOf .pointer ws)
    loadValues M.toTarget func.paramTypes a
  else liftValues M.toTarget func.paramTypes ws

/-- A synchronous export gives back the area its parameters came in. -/
def exportRelease (ws : List Word) : Exec Event Unit :=
  if sig.indirectParams && !async_ then do
    let a ← require (bitsOf .pointer ws)
    release (paramArea M func a)
  else pure ()

/-- Whether the result is in memory: `task.return` takes up to sixteen core values, the end of
a synchronous export as many as its signature says. -/
def resultIndirect : Bool :=
  if async_ then maxFlatParams < ((func.result.map Ty.pushFlat).getD []).length else sig.retptr

/-- From the core values an export is called with to those it hands over in the end. -/
def exportMeaning (ws : List Word) : Exec Event (List Word) := do
  let vs ← exportParams M func sig ws
  note (.called func.name vs)
  let r ← M.callInterface func vs
  exportRelease M func sig async_ ws
  passValues M func.result.toList (resultIndirect func sig async_) r.toList

end

/-! ## Single steps -/

section
variable {M : Machine} {c : Ty → Bool} {func : Function} {sig : WasmSignature}
  {ra : Option Realloc} {r : Realloc} {params : List Ty} {ops : List Nat} {n : Nat}

/-- A recorded instruction without blocks. -/
abbrev plain (i : Instruction) (ops : List Nat) : List CStmt := [Code.Stmt.mk (Op.inst i) ops []]

/-- A request for an area for a record of `types`. -/
def areaCode (types : List Ty) : List CStmt :=
  [Code.Stmt.mk (Op.returnPointer (recordInfo (types.map Ty.info)).size
    (recordInfo (types.map Ty.info)).align) [] []]

theorem areaCode_emits (types : List Ty) :
    Emits ra (returnPointer (recordInfo (types.map Ty.info)).size
      (recordInfo (types.map Ty.info)).align : RGen M.W c Nat) ops n n ops (areaCode types)
      (n + 1) := fun _ _ _ _ => returnPointer_ok _ _

theorem areaCode_computes (types : List Ty) {ctx : Ctx} {env : List RVal} (hn : env.length = n) :
    Computes M.step (areaCode types) ctx env (n + 1) (areaFor M types)
      fun env' a => env'[n]? = some (.ptr a) := by
  subst hn
  refine Computes.stmt (lookup_nil env) ?_
  have harea := (Agree.refl (areaFor M types)).bind (f := fun a => (pure [.ptr a] : Machine.Results))
    (g := pure) (S := fun rs a => rs.length = 1 ∧ (env ++ rs)[env.length]? = some (.ptr a))
    fun a _ h => by
      subst h
      exact Agree.pure ⟨rfl, by simp⟩
  rwa [bind_pure] at harea

theorem getArg_emits (nth : Nat) : Emits ra (emit M.W (.getArg nth) : RGen M.W c Unit) [] n ()
    [n] (plain (.getArg nth) []) (n + 1) := Emits.emit rfl rfl rfl

/-- The first of the arguments that are left, and the others. -/
theorem getArg_computes {ctx : Ctx} {env : List RVal} {nth : Nat} {x : RVal} {xs : List RVal}
    (hn : env.length = n) (hargs : ctx.args.drop nth = x :: xs) :
    Computes M.step (plain (.getArg nth) []) ctx env (n + 1) (pure ())
      (fun env' _ => env'[n]? = some x) ∧ ctx.args.drop (nth + 1) = xs := by
  constructor
  · apply computes_value hn
    show (require ctx.args[nth]? >>= fun x => pure [x]) = _
    rw [← List.head?_drop, hargs]
    rfl
  · rw [← List.tail_drop, hargs]
    rfl

/-! ## The arguments of an export -/

theorem getArgs_computes (ra : Option Realloc) (k offset n : Nat) : ∃ code outs n', outs.length = k ∧
    Emits ra (getArgs M.W offset k : RGen M.W c Unit) [] n () outs code n' ∧
    ∀ ctx env (ws : List Word), env.length = n → ctx.args.drop offset = ws.map .word →
      k ≤ ws.length → Computes M.step code ctx env n' (pure ()) fun env' _ =>
        lookup env' outs = some ((ws.take k).map .word) := by
  induction k generalizing offset n with
  | zero =>
    refine ⟨[], [], n, rfl, Emits.pure, ?_⟩
    rintro ctx env ws rfl _ _
    exact Computes.nil (lookup_nil env)
  | succ k ih =>
    obtain ⟨code, outs, n', hlen, hrest, hcomp⟩ := ih (offset + 1) (n + 1)
    refine ⟨plain (.getArg offset) [] ++ code, [n] ++ outs, n', by simp [hlen], ?_, ?_⟩
    · rw [getArgs, List.range'_succ]
      exact (getArg_emits offset).bind (hrest.above [n])
    · rintro ctx env (_ | ⟨w, ws⟩) hn hargs hle
      · cases hle
      · obtain ⟨hget, hws⟩ := getArg_computes (M := M) hn hargs
        rw [← pure_bind () fun _ => pure ()]
        refine Computes.append hget fun env₁ _ _ hn₁ hv => ?_
        exact (hcomp ctx env₁ ws hn₁ hws (Nat.le_of_succ_le_succ hle)).mono
          fun env₂ _ hpre _ hvs => lookup_cons (getElem?_mono hpre hv) hvs

theorem liftArgs_computes (ra : Option Realloc) (hM : M.W.Lawful M.p) (h : ∀ t ∈ params, t.Valid)
    (hflat : flatLength M.W params ≤ maxFlatParams) (offset n : Nat) : ∃ code outs n',
    outs.length = params.length ∧
    Emits ra (liftArgs M.W maxFlatParams params offset : RGen M.W c Unit) [] n () outs code n' ∧
    ∀ ctx env (ws : List Word), env.length = n → ctx.args.drop offset = ws.map .word →
      flatLength M.W params ≤ ws.length →
      Computes M.step code ctx env n' (liftValues M.toTarget params ws)
        fun env' vs => lookup env' outs = some (vs.map .val) := by
  induction params generalizing offset n with
  | nil =>
    refine ⟨[], [], n, rfl, Emits.pure, ?_⟩
    rintro ctx env ws rfl _ _
    exact Computes.nil (lookup_nil env)
  | cons t params ih =>
    rw [flatLength_cons] at hflat
    have hfits : (M.W.pushFlat t).length ≤ maxFlatParams := by omega
    have htypes : M.W.flatTypes t (some maxFlatParams) = some (M.W.pushFlat t) := if_pos hfits
    obtain ⟨code₀, args, n₀, hargs, hget, hcomp₀⟩ :=
      getArgs_computes (M := M) (c := c) ra (M.W.pushFlat t).length offset n
    have ht := h t List.mem_cons_self
    have hlift : LiftOk M c ra t := (lift_and_read hM ht.supported).1 ht hfits
    obtain ⟨code₁, y, n₁, hlift, hcomp₁⟩ := hlift args n₀ hargs
    obtain ⟨code₂, outs, n₂, hlen, hrest, hcomp₂⟩ :=
      ih (fun u hu => h u (List.mem_cons_of_mem _ hu)) (by omega)
        (offset + (M.W.pushFlat t).length) n₁
    refine ⟨code₀ ++ (code₁ ++ code₂), [y] ++ outs, n₂, by simp [hlen], ?_, ?_⟩
    · rw [liftArgs, htypes, orPanic]
      exact Emits.then Emits.pure (hget.bind (hlift.bind (hrest.above [y])))
    · intro ctx env ws hn hws hle
      rw [flatLength_cons] at hle
      have hdrop : ctx.args.drop (offset + (M.W.pushFlat t).length) =
          (ws.drop (M.W.pushFlat t).length).map .word := by
        rw [← List.drop_drop, hws, List.map_drop]
      rw [liftValues, ← pure_bind () fun _ => liftFlat M.toTarget t _ >>= _]
      refine Computes.append (hcomp₀ ctx env ws hn hws (by omega)) fun env₀ _ _ hn₀ hlook => ?_
      refine Computes.append (hcomp₁ ctx env₀ _ hn₀ hlook) fun env₁ v _ hn₁ hv => ?_
      rw [← map_eq_pure_bind]
      exact (hcomp₂ ctx env₁ _ hn₁ hdrop (by rw [List.length_drop]; omega)).map
        fun env₂ vs hpre _ hvs => lookup_cons (getElem?_mono hpre hv) hvs

/-- The core parameters of an export: its arguments side by side, or a pointer to them. -/
structure ExportParams (func : Function) (sig : WasmSignature) : Prop where
  indirect : sig.indirectParams = true → sig.params = [.pointer]
  direct : sig.indirectParams = false →
    sig.params.length = flatLength .canonical func.paramTypes ∧
    flatLength .canonical func.paramTypes ≤ maxFlatParams

theorem exportParams_canonical {variant : AbiVariant}
    (hvariant : variant = .guestExport ∨ variant = .guestExportAsync) :
    ExportParams func (wasmSignature variant func) := by
  have hparams : (wasmSignature variant func).params = (flatParams variant func).1 ∧
      (wasmSignature variant func).indirectParams = (flatParams variant func).2 := by
    rw [wasmSignature]
    rcases hvariant with rfl | rfl
    · dsimp only
      split <;> exact ⟨rfl, rfl⟩
    · exact ⟨rfl, rfl⟩
  have hsync : variant ≠ .guestImportAsync := by rcases hvariant with rfl | rfl <;> simp
  constructor <;> rw [hparams.1, hparams.2] <;>
    rcases flatParams_cases variant func hsync with hfp | ⟨params, hfp, hlen, hmax⟩ <;> rw [hfp]
  · exact fun _ => rfl
  · simp
  · simp
  · exact fun _ => ⟨hlen, hmax⟩

theorem ExportParams.pointer (h : ExportParams func sig) (hi : sig.indirectParams = true)
    {ws : List Word} (hws : ws.map Word.ty = sig.params) :
    ∃ a, ws = [⟨.pointer, a⟩] ∧ bitsOf .pointer ws = some a := by
  rw [h.indirect hi] at hws
  obtain ⟨⟨ty, a⟩, rfl, hty⟩ := List.map_eq_singleton_iff.mp hws
  obtain rfl : ty = .pointer := hty
  exact ⟨a, rfl, rfl⟩

/-! ## The phases of an export -/

section
variable (hM : Hosts M func) (hsig : ExportParams func sig) {variant : AbiVariant}
include hM

include hsig in
theorem exportArgs_computes (hparams : ∀ t ∈ func.paramTypes, t.Valid) : ∃ code outs n',
    outs.length = func.params.length ∧
    Emits none (exportArgs M.W func sig : RGen M.W c Unit) [] 0 () outs code n' ∧
    ∀ ctx (ws : List Word), ctx.args = ws.map .word → ws.map Word.ty = sig.params →
      Computes M.step code ctx [] n' (exportParams M func sig ws) fun env' vs =>
        lookup env' outs = some (vs.map .val) := by
  cases hi : sig.indirectParams with
  | true =>
    obtain ⟨code, outs, n', hlen, hemits, hcomp⟩ :=
      exportArgs_reads (c := c) hM.canonical hM.lawful hparams hi
    refine ⟨code, outs, n', hlen, hemits, fun ctx ws hargs hws => ?_⟩
    obtain ⟨a, rfl, hbits⟩ := hsig.pointer hi hws
    rw [exportParams, if_pos hi, hbits, require_some, pure_bind]
    exact hcomp ctx a (by rw [hargs]; rfl)
  | false =>
    obtain ⟨hlen, hmax⟩ := hsig.direct hi
    rw [← hM.canonical] at hlen hmax
    obtain ⟨code, outs, n', houts, hemits, hcomp⟩ :=
      liftArgs_computes (c := c) none hM.lawful hparams hmax 0 0
    refine ⟨code, outs, n', ?_, ?_, fun ctx ws hargs hws => ?_⟩
    · rw [houts, Function.paramTypes, List.length_map]
    · rw [exportArgs, hi]
      exact hemits
    · rw [exportParams, hi]
      exact hcomp ctx [] ws rfl hargs (by rw [← hlen, ← hws, List.length_map])

/-- The user's function, with its result in scope. -/
theorem callInterface_value (async_ : Bool) (ctx : Ctx) {env : List RVal} {vs : List Val} (hn : env.length = n)
    (hops : lookup env ops = some (vs.map .val)) :
    Computes M.step (plain (.callInterface func async_) ops) ctx env
      (n + if func.result.isSome then 1 else 0)
      (note (.called func.name vs) >>= fun _ => M.callInterface func vs) fun env' r =>
        lookup env' (List.range' n (if func.result.isSome then 1 else 0)) =
          some (r.toList.map .val) := by
  apply computes_inst hn hops
  have hsem : M.instSem (.callInterface func async_) ctx [] (vs.map .val) =
      (require ((vs.map RVal.val).mapM RVal.asVal) >>= fun vs =>
        note (.called func.name vs) >>= fun _ => M.callInterface func vs >>= fun r =>
          pure (r.toList.map .val)) := rfl
  rw [List.map_nil, hsem, mapM_asVal, require_some, pure_bind]
  refine (Agree.refl _).bind ?_
  rintro u _ rfl w
  rw [run_bind]
  cases hcall : M.callInterface func vs w with
  | error e => rfl
  | ok p =>
    refine ⟨rfl, ?_, rfl⟩
    have hr := hM.returns vs w p.1 p.2 hcall
    cases hp : p.1 <;> rw [hp] at hr <;> simp [← hr]

include hsig in
theorem freeParams_computes (async_ : Bool) (hexport : isExport variant) (ops : List Nat) (n : Nat) :
    ∃ code n', Emits none (freeParams M.W func variant sig async_ : RGen M.W c Unit) ops n () ops
        code n' ∧
      ∀ ctx env (ws : List Word), env.length = n → ctx.args = ws.map .word →
        ws.map Word.ty = sig.params →
        Computes M.step code ctx env n' (exportRelease M func sig async_ ws) fun _ _ => True := by
  rw [freeParams, hexport, Bool.true_and]
  by_cases hfree : (sig.indirectParams && !async_) = true
  · obtain ⟨hi, hsync⟩ := Bool.and_eq_true_iff.mp hfree
    obtain rfl : async_ = false := by simpa using hsync
    have hinfo : M.W.record func.paramTypes = recordInfo (func.paramTypes.map Ty.info) := by
      rw [hM.canonical]
      rfl
    have hdealloc : Emits none (emit M.W (.guestDeallocate
        (recordInfo (func.paramTypes.map Ty.info)).size
        (recordInfo (func.paramTypes.map Ty.info)).align) : RGen M.W c Unit) [n] (n + 1) () []
      _ (n + 1) := Emits.emit rfl rfl rfl
    have habove := ((getArg_emits 0).bind (f := fun _ => emit M.W _) hdealloc).above ops
    rw [List.append_nil] at habove
    refine ⟨_, _, by rw [if_pos hfree, hinfo]; exact habove, fun ctx env ws hn hargs hws => ?_⟩
    obtain ⟨a, rfl, hbits⟩ := hsig.pointer hi hws
    have ha : ctx.args[0]? = some (RVal.ptr a) := by rw [hargs]; rfl
    have hrelease := freeParamsCode_computes (M := M) func hi ha hn
    rw [exportRelease, if_pos hfree, hbits, require_some, pure_bind]
    rwa [freeParamsCode, hi] at hrelease
  · rw [if_neg hfree]
    refine ⟨[], n, Emits.pure, ?_⟩
    rintro ctx env ws rfl _ _
    rw [exportRelease, if_neg hfree]
    exact Computes.nil trivial

/-- The result of an export, as core values or in an area. -/
theorem lowerResults_computes (sig : WasmSignature) (hresult : ∀ t ∈ func.result, t.Valid)
    (hvariant : variant = .guestExport ∨ variant = .guestExportAsync) {toMemory : Bool}
    (hflat : toMemory = false → ((func.result.map Ty.pushFlat).getD []).length ≤ maxFlatParams)
    (hops : ops.length = if func.result.isSome then 1 else 0) (n : Nat) : ∃ code outs n',
    outs.length = (if toMemory then 1 else ((func.result.map Ty.pushFlat).getD []).length) ∧
    Emits (some r) (lowerResults M.W func variant sig toMemory : RGen M.W c Unit) ops n () outs
      code n' ∧
    ∀ ctx env (vs : List Val), env.length = n → lookup env ops = some (vs.map .val) →
      Computes M.step code ctx env n' (passValues M func.result.toList toMemory vs)
        fun env' ws => lookup env' outs = some (ws.map .word) := by
  have hsupp : ∀ t ∈ func.result.toList, t.Supported := fun t ht =>
    (hresult t (by simpa using ht)).supported
  cases toMemory with
  | false =>
    rw [lowerResults_flat]
    cases hr : func.result with
    | none =>
      rw [hr] at hops
      obtain rfl : ops = [] := List.eq_nil_of_length_eq_zero hops
      refine ⟨[], [], n, rfl, Emits.pure, ?_⟩
      rintro ctx env vs rfl _
      exact Computes.nil (lookup_nil env)
    | some t =>
      rw [hr] at hops hflat
      have hpush : M.W.pushFlat t = t.pushFlat := by
        rw [hM.canonical]
        rfl
      obtain ⟨x, rfl⟩ := List.length_eq_one_iff.mp hops
      have hlower : LowerOk M c (some r) t := (lower_and_write hM.lawful
        (hsupp t (by rw [hr]; exact List.mem_singleton_self t))).1 (by rw [hpush]; exact hflat rfl)
      obtain ⟨code, outs, n', hlen, hemits, hcomp⟩ := hlower x n
      refine ⟨code, outs, n', by rw [hlen, hpush]; rfl, hemits, fun ctx env vs hn hlook => ?_⟩
      obtain ⟨v, rfl⟩ : ∃ v, vs = [v] :=
        List.length_eq_one_iff.mp (by simpa using lookup_length hlook)
      have hspec : passValues M [t] false [v] = lowerFlat M.toTarget t v := by
        show lowerFlat M.toTarget t v >>= (fun ws => pure [] >>= fun rest => pure (ws ++ rest)) = _
        simp
      show Computes M.step code ctx env n' (passValues M [t] false [v]) _
      rw [hspec]
      exact hcomp ctx env v hn (lookup_cons_inv hlook).1
  | true =>
    have hinfo : M.W.params func.result = recordInfo (func.result.toList.map Ty.info) := by
      rw [hM.canonical]
      rfl
    have hoffsets : M.W.fieldOffsets func.result.toList = offsetsFrom default func.result.toList := by
      rw [hM.canonical]
      rfl
    have hlen : ops.length = func.result.toList.length := by
      rw [hops]
      cases func.result <;> rfl
    have hwrite : ∀ t ∈ func.result.toList, WriteOk M c (some r) t := fun t ht =>
      (lower_and_write hM.lawful (hsupp t ht)).2
    obtain ⟨code, n', hwrites, hcomp⟩ := writesFields hM.lawful hwrite hlen n (n + 1) default
    rw [hoffsets] at hcomp
    refine ⟨areaCode func.result.toList ++ code, [n], n', rfl, ?_, fun ctx env vs hn hlook => ?_⟩
    · rw [lowerResults_memory hvariant, hinfo, ← List.append_nil code]
      exact (areaCode_emits _).bind (hwrites.bind (Emits.push n))
    · refine Computes.append (areaCode_computes _ hn) fun env₁ a hpre hn₁ ha => ?_
      rw [← map_eq_pure_bind]
      have hstore := hcomp ctx env₁ vs a hn₁ (lookup_mono hpre hlook) ha
      rw [ArchitectureSize.eval_default, Nat.add_zero] at hstore
      exact hstore.map fun env₂ _ hpre₂ _ _ => lookup_one (getElem?_mono hpre₂ ha)

end

/-! ## Exports -/

/-- The instruction an export hands its result over with. -/
def handOver (func : Function) (sig : WasmSignature) (async_ : Bool) : Instruction :=
  if async_ then .asyncTaskReturn ("[task-return]" ++ func.name)
    (if resultIndirect func sig true then [.pointer] else (func.result.map Ty.pushFlat).getD [])
  else .return_ sig.results.length func

section
variable {variant : AbiVariant} {async_ : Bool}

/-- How many core values the result is. -/
theorem handOver_operands (hsig : async_ = false → ExportSignature .canonical func sig) :
    (resultIndirect func sig async_ = false →
      ((func.result.map Ty.pushFlat).getD []).length ≤ maxFlatParams) ∧
    (handOver func sig async_).operandsLen .canonical =
      if resultIndirect func sig async_ then 1
      else ((func.result.map Ty.pushFlat).getD []).length := by
  cases async_ with
  | true =>
    refine ⟨fun h => by simpa [resultIndirect] using h, ?_⟩
    rw [handOver, if_pos rfl]
    cases resultIndirect func sig true <;> rfl
  | false =>
    have hexport : ExportSignature .canonical func sig := hsig rfl
    show (sig.retptr = false → _) ∧ sig.results.length = if sig.retptr then 1 else _
    cases hret : sig.retptr with
    | true => exact ⟨nofun, by rw [hexport.retptr hret]; rfl⟩
    | false =>
      obtain ⟨hres, hmax⟩ := hexport.results hret
      rw [hres] at hmax ⊢
      exact ⟨fun _ => hmax, rfl⟩

theorem callLiftArgs_canonical (hvariant : variant = .guestExport ∨ variant = .guestExportAsync) :
    (callLiftArgs .canonical func variant sig r async_ : RGen .canonical c Unit) = (do
      let _ ← exportArgs .canonical func sig
      emit .canonical (.callInterface func async_)
      freeParams .canonical func variant sig async_
      setRealloc (some r)
      lowerResults .canonical func variant sig (resultIndirect func sig async_)
      emit .canonical (handOver func sig async_)
      setRealloc none) := by
  have hmax : (if variant = .guestImportAsync && async_ then maxFlatAsyncParams
      else maxFlatParams) = maxFlatParams := by
    rcases hvariant with rfl | rfl <;> rfl
  rw [callLiftArgs, hmax, exportArgs]
  cases async_ with
  | false => cases sig.indirectParams <;> simp <;> rfl
  | true =>
    rw [asyncFlatResults_async]
    by_cases hsmall : ((func.result.map WitParser.canonical.pushFlat).getD []).length ≤ maxFlatParams
    · have hres : resultIndirect func sig true = false :=
        decide_eq_false (Nat.not_lt.mpr hsmall)
      rw [handOver, hres, if_pos hsmall]
      rcases hvariant with rfl | rfl <;> cases sig.indirectParams <;> simp <;> rfl
    · have hres : resultIndirect func sig true = true := decide_eq_true (Nat.not_le.mp hsmall)
      rw [handOver, hres, if_neg hsmall]
      rcases hvariant with rfl | rfl <;> cases sig.indirectParams <;> simp <;> rfl

end

/-- The recorded code of an export, up to the instruction that hands its result over, takes
the core values it is called with to the core values of the result, as its meaning says. -/
def ExportMeans (M : Machine) (c : Ty → Bool) (func : Function) (variant : AbiVariant)
    (async_ : Bool) : Prop :=
  let sig := wasmSignature variant func
  ∃ code ops n, Records .canonical c variant .liftArgsLowerResults func async_
      (code ++ plain (handOver func sig async_) ops) ∧
    ∀ ctx (ws : List Word), ctx.args = ws.map .word → ws.map Word.ty = sig.params →
      Computes M.step code ctx [] n (exportMeaning M func sig async_ ws) fun env rs =>
        lookup env ops = some (rs.map .word)

theorem export_means (hM : Hosts M func) {variant : AbiVariant} {async_ : Bool}
    (hpassed : Passed variant .liftArgsLowerResults async_)
    (hparams : ∀ t ∈ func.paramTypes, t.Valid) (hresult : ∀ t ∈ func.result, t.Valid) :
    ExportMeans M c func variant async_ := by
  obtain ⟨⟨W, p, A⟩, area, callWasm, callInterface⟩ := M
  obtain rfl : W = .canonical := hM.canonical
  have hvariant : variant = .guestExport ∨ variant = .guestExportAsync := by
    cases hpassed <;> simp
  have hexport : isExport variant := by rcases hvariant with rfl | rfl <;> rfl
  have hsig : async_ = false → ExportSignature .canonical func (wasmSignature variant func) := by
    intro hsync
    cases hpassed with
    | exported => exact exportSignature_canonical func
    | exportedAsync => cases hsync
    | exportedTask => cases hsync
  have hfits : ExportParams func (wasmSignature variant func) := exportParams_canonical hvariant
  obtain ⟨hflat, hhand⟩ := handOver_operands hsig
  generalize hk : (if func.result.isSome then 1 else 0) = k
  -- four pieces of code: lifting, the call, freeing the parameters, lowering
  obtain ⟨argsCode, args, n₁, hargsLen, hargs, hargsComp⟩ :=
    exportArgs_computes (c := c) hM hfits hparams
  obtain ⟨freeCode, n₂, hfree, hfreeComp⟩ := freeParams_computes (c := c) hM hfits
    async_ hexport (List.range' n₁ k) (n₁ + k)
  obtain ⟨lowerCode, outs, n₃, houts, hlower, hlowerComp⟩ := lowerResults_computes (c := c)
    (r := callRealloc variant .liftArgsLowerResults async_) hM (wasmSignature variant func) hresult
    hvariant hflat (show (List.range' n₁ k).length = _ by rw [List.length_range', hk]) n₂
  refine ⟨argsCode ++ (plain (.callInterface func async_) args ++ (freeCode ++ lowerCode)), outs,
    n₃, .of_run (n := n₃) ?_, fun ctx ws hws htys => ?_⟩
  · show (callLiftArgs .canonical func variant (wasmSignature variant func) _ async_ :
      RGen .canonical c Unit) _ = _
    have hcall : (Instruction.callInterface func async_).resultsLen .canonical = k := hk
    have hnone : (handOver func (wasmSignature variant func) async_).resultsLen .canonical = 0 ∧
        (handOver func (wasmSignature variant func) async_).blockResults = [] := by
      cases async_ <;> exact ⟨rfl, rfl⟩
    rw [callLiftArgs_canonical hvariant, bind_ok (hargs.run [] none), List.nil_append,
      bind_ok (emit_run' hargsLen rfl hcall), bind_ok (hfree.run _ none),
      bind_ok (setRealloc_ok _), bind_ok (hlower.run _ none),
      bind_ok (emit_run' (houts.trans hhand.symm) hnone.2 hnone.1), setRealloc_ok]
    simp [List.append_assoc]
  · refine Computes.append (hargsComp ctx ws hws htys) fun env₁ vs _ hn₁ hvs => ?_
    have hcall := callInterface_value hM async_ ctx hn₁ hvs
    rw [hk] at hcall
    rw [← bind_assoc]
    refine Computes.append hcall fun env₂ r _ hn₂ hr => ?_
    refine Computes.append (hfreeComp ctx env₂ ws hn₂ hws htys) fun env₃ _ hpre₃ hn₃ _ => ?_
    exact hlowerComp ctx env₃ r.toList hn₃ (lookup_mono hpre₃ hr)

/-- The nine names of `collect` come in an area. -/
theorem export_means_collect : ExportMeans quietGuest (fun _ => false) collect .guestExport false :=
  export_means quietGuest_hosts .exported collect_params nofun

end

end WitBindgen
