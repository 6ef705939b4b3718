import WitBindgen.Go.Pinning

/-!
# The pinning discipline of imports and exports

An export reads its arguments, releases their memory where there is any, calls the user's
function and lowers the result; an import lowers its arguments, calls the host and lifts the
result. With their texts taken apart that way, an import keeps the discipline, and an export
does unless its arguments come in memory and one of them is handed on as an expression that
still loads: that load is printed as an argument of the call, after the release.
-/

namespace WitBindgen.Go

open Trace Generator

variable {W : WitParser} {c : Config} {loads armed : Prop} {pins : Bool → Prop}

/-! ## Steps one after the other -/

theorem evaluateAll_eq (ops : List Operand) :
    evaluateAll ops = .acts (List.replicate ops.sum .load) := by
  induction ops with
  | nil => rfl
  | cons o ops ih =>
    show evaluate o ++ evaluateAll ops = _
    rw [ih, evaluate, List.sum_cons, List.replicate_add]
    exact List.map_append.symm

theorem sum_eq_zero_of_fine {ops : List Operand} (h : ∀ o ∈ ops, FineOperand False o) :
    ops.sum = 0 :=
  List.sum_eq_zero_iff_forall_eq_nat.mpr fun o ho => not_not.mp fun hne => h o ho hne

namespace Added

theorem refl (s : State) : Added loads pins armed s s [] :=
  ⟨.nil, (List.append_nil _).symm, rfl, rfl, id⟩

theorem trans (hpins : pins false → pins true) {s₁ s₂ s₃ : State} {t u : Text Act}
    (h : Added loads pins armed s₁ s₂ t) (h' : Added loads pins armed s₂ s₃ u) :
    Added loads pins armed s₁ s₃ (t ++ u) := by
  refine ⟨(h.fine.mono fun hp => ?_).append h'.fine, ?_, h'.blockStorage.trans h.blockStorage,
    h'.blocks.trans h.blocks, fun hn => h'.needPinner (h.needPinner hn)⟩
  · cases hn : s₂.needPinner with
    | true => rw [hn] at hp; rw [h'.needPinner hn]; exact hp
    | false =>
      rw [hn] at hp
      cases s₃.needPinner with
      | false => exact hp
      | true => exact hpins hp
  · rw [h'.src, h.src, List.append_assoc]

end Added

/-- What an instruction without blocks adds to the text. -/
theorem emit_added {i : Instruction} (hblocks : blocksTaken i = 0)
    {s s' : GenState (functionGenerator W c)} (h : emit W i s = .ok ((), s')) :
    ∃ below ops stmts results, s.stack = below ++ ops ∧ ops.length = i.operandsLen W ∧
      render W c i ops [] = .ok (stmts, results) ∧ s'.stack = below ++ results ∧
      s'.bindgen.src = s.bindgen.src ++ stmts ∧
      s'.bindgen.needPinner = (s.bindgen.needPinner || i.allocates) := by
  obtain ⟨below, ops, results, hstack, hops, hemit, -, hs'⟩ := emit_inv h
  change (if _ then _ else _) = _ at hemit
  rw [hblocks, if_pos (Nat.zero_le _), Nat.sub_zero, List.drop_length] at hemit
  cases hr : render W c i ops [] with
  | error e => rw [hr] at hemit; cases hemit
  | ok r =>
    rw [hr] at hemit
    obtain ⟨rfl, hb⟩ := Prod.mk.inj (Except.ok.inj hemit)
    exact ⟨below, ops, r.1, r.2, hstack, hops, hr, by rw [hs'], by rw [← hb], by rw [← hb]⟩

/-! ## The arguments of an export -/

theorem forEachParam_pushes {params : List Ty} {run : Ty → ArchitectureSize → GoGen W c Unit}
    (h : ∀ t ∈ params, ∀ offset, Pushes t.Residual (run t offset)) {offset : ArchitectureSize}
    {s s' : GenState (functionGenerator W c)}
    (hrun : forEachParam W (params.map fun t => (t, run t)) offset s = .ok ((), s')) :
    ∃ xs : List Operand, s'.stack = s.stack ++ xs ∧
      List.Forall₂ (fun x t => x ≠ 0 ↔ Ty.Residual t) xs params := by
  induction params generalizing offset s with
  | nil => cases hrun; exact ⟨[], (List.append_nil _).symm, .nil⟩
  | cons t params ih =>
    obtain ⟨_, s₁, h₁, h₂⟩ := bind_inv hrun
    obtain ⟨x, hx, hp⟩ := h t List.mem_cons_self _ s s₁ h₁
    obtain ⟨xs, hxs, hps⟩ := ih (fun u hu => h u (List.mem_cons_of_mem _ hu)) h₂
    exact ⟨x :: xs, by rw [hxs, hx, List.append_assoc]; rfl, .cons hp hps⟩

theorem yields_getArg (nth : Nat) : Yields W c (.getArg nth) [] [0] := by
  refine ⟨rfl, fun blocks stmts rs hr => ?_⟩
  change ite (nth < c.paramNames) _ _ = _ at hr
  split at hr <;> cases hr
  rfl

theorem admitted_getArg (nth : Nat) : Admitted loads pins armed (.getArg nth) :=
  ⟨.inr (.inr rfl), nofun, nofun, fun _ => ⟨rfl, .inr rfl⟩⟩

theorem admitted_guestDeallocate (size : ArchitectureSize) (align : Alignment) :
    Admitted loads pins armed (.guestDeallocate size align) :=
  ⟨.inr (.inr rfl), nofun, nofun, fun _ => ⟨rfl, .inr rfl⟩⟩

theorem admitted_flush (amt : Nat) : Admitted loads pins armed (.flush amt) :=
  ⟨.inr (.inr rfl), nofun, nofun, fun _ => ⟨rfl, .inr rfl⟩⟩

section
variable {func : Function} {sig : WasmSignature} {s₀ : State}

theorem exportArgs_extends (armed : Prop) (h : armed → ∀ t ∈ func.paramTypes, t.Valid) :
    Steady (Extends True (fun _ => False) armed s₀) (FineOperand True)
      (exportArgs W func sig : GoGen W c Unit) := by
  have hI : Stable (functionGenerator W c) (Admitted True (fun _ => False) armed)
      (Extends True (fun _ => False) armed s₀) (FineOperand True) :=
    functionGenerator_stable True armed s₀ id
  refine Keeps.ite ((Keeps.emit hI (admitted_getArg 0) rfl).and_then fun _ => ?_) ?_
  · refine Keeps.readParamsFromMemory hI fun i hi ha =>
      ⟨.inr (.inl hi), fun hi' => ?_, fun _ => trivial, fun hv => ⟨ha (h hv), .inl hi⟩⟩
    rw [Instruction.allocates_of_lifting hi] at hi'
    cases hi'
  · exact Keeps.liftArgs hI admitted_getArg
      (fun t ht => (lift_extends fun ha => h ha t ht).1) _ _

/-- The operands of the call load something iff the arguments come in memory and one of them is
residual. -/
theorem exportArgs_operands (hW : ∀ types, (W.fieldOffsets types).map (·.2) = types)
    {s s' : GenState (functionGenerator W c)} (hstack : s.stack = [])
    (h : (exportArgs W func sig : GoGen W c Unit) s = .ok ((), s')) {below ops : List Operand}
    (hs' : s'.stack = below ++ ops) (hops : ops.length = func.params.length) :
    (ops.sum ≠ 0 ↔ sig.indirectParams ∧ ∃ t ∈ func.paramTypes, t.Residual) ∧
      ∀ o ∈ below, FineOperand False o := by
  unfold exportArgs at h
  split at h
  · next hind =>
    obtain ⟨_, s₁, h₁, h₂⟩ := bind_inv h
    obtain ⟨ptr, s₂, h₃, h₄⟩ := bind_inv h₂
    have hs : s.stack = [] ++ ([] : List Operand) := hstack
    obtain ⟨rfl, hs₂⟩ := pop_inv h₃ ((yields_getArg 0).emit h₁ hs)
    have hpushes : ∀ t ∈ func.paramTypes, ∀ offset,
        Pushes t.Residual (readFromMemory W t (0 : Nat) offset : GoGen W c Unit) :=
      fun t _ => readFromMemory_pushes hW t
    obtain ⟨xs, hxs, hres⟩ := forEachParam_pushes hpushes h₄
    rw [hs₂, List.nil_append] at hxs
    have hlen : xs.length = ops.length := by
      rw [hops, hres.length_eq, Function.paramTypes, List.length_map]
    have hbelow : below ++ ops = [] ++ xs := hs'.symm.trans hxs
    obtain ⟨rfl, rfl⟩ := List.append_inj' hbelow hlen.symm
    rw [sum_ne_zero_iff hres]
    exact ⟨by simp [hind], nofun⟩
  · next hind =>
    have hI := functionGenerator_unloaded (W := W) (c := c)
    obtain ⟨-, hall, -⟩ := Keeps.liftArgs (W := W) hI (fun _ => .inr rfl)
      (fun t _ => lift_unloaded hW t) maxFlatParams 0 s () s' 0 [] h trivial
      (by rw [hstack]; nofun)
    rw [hs'] at hall
    obtain ⟨hbelow, hall⟩ := List.forall_mem_append.mp hall
    exact ⟨by simp [hind, sum_eq_zero_of_fine hall], hbelow⟩

end

/-! ## Exports -/

/-- The text of an export between the definition of its pinner and its end. -/
structure ExportText (func : Function) (indirect needs async_ : Bool) (src : Text Act) where
  lift : Text Act
  unpinParams : Bool
  args : List Operand
  lower : Text Act
  ret : Text Act
  src_eq : src = lift ++ ((if unpinParams then [Stmt.act Act.unpinRuntime] else []) ++
    evaluateAll args ++ [Stmt.act Act.callUser] ++ lower ++ ret)
  lift_fine : Fine True False (∀ t ∈ func.paramTypes, t.Valid) lift
  lower_fine : Fine False (needs = true) False lower
  unpins : indirect = true → unpinParams = true
  args_load : args.sum ≠ 0 ↔ indirect = true ∧ ∃ t ∈ func.paramTypes, t.Residual
  ret_eq : (async_ = true ∧ ret = [Stmt.act .taskReturn]) ∨
    async_ = false ∧ (ret = [] ∨ ret = [Stmt.act .return_])

theorem callInterface_added {func : Function} {async_ : Bool}
    {s s' : GenState (functionGenerator W c)}
    (h : emit W (.callInterface func async_) s = .ok ((), s')) :
    ∃ below ops, s.stack = below ++ ops ∧ ops.length = func.params.length ∧
      (∀ o ∈ s'.stack, o ∈ below ∨ o = 0) ∧
      s'.bindgen.src = s.bindgen.src ++ ((if c.unpinParams then [Stmt.act Act.unpinRuntime] else []) ++
        evaluateAll ops ++ [Stmt.act Act.callUser]) := by
  obtain ⟨below, ops, stmts, results, hstack, hops, hr, hs', hsrc, -⟩ := emit_added rfl h
  cases hr
  refine ⟨below, ops, hstack, hops, fun o ho => ?_, hsrc⟩
  rw [hs'] at ho
  refine (List.mem_append.mp ho).imp_right fun ho => ?_
  cases hres : func.result.isSome with
  | false => rw [hres] at ho; cases ho
  | true => rw [hres] at ho; exact List.mem_singleton.mp ho

/-- An export hands its result over, if it is not returned through memory alone. -/
theorem returnResults_added {func : Function} {variant : AbiVariant} {sig : WasmSignature}
    {flatResults : Option (Option (List WasmType))} {async_ : Bool}
    (hvariant : variant = .guestExport ∨ variant = .guestExportAsync)
    (hflat : flatResults.isSome = async_) {s s' : GenState (functionGenerator W c)}
    (h : (returnResults W func variant sig flatResults async_ : GoGen W c Unit) s = .ok ((), s'))
    (hstack : ∀ o ∈ s.stack, FineOperand False o) : ∃ ret, s'.bindgen.src = s.bindgen.src ++ ret ∧
      ((async_ = true ∧ ret = [Stmt.act .taskReturn]) ∨
        async_ = false ∧ (ret = [] ∨ ret = [Stmt.act .return_])) := by
  obtain ⟨i, hi, hcase⟩ := @returnResults_eq W (functionGenerator W c) func variant sig async_
    hvariant flatResults hflat
  rw [hi] at h
  have hops : ∀ {below ops : List Operand}, s.stack = below ++ ops →
      ∀ o ∈ ops, FineOperand False o := fun hs o ho =>
    hstack o (by rw [hs]; exact List.mem_append_right _ ho)
  rcases hcase with ⟨ha, name, tys, rfl⟩ | ⟨ha, rfl⟩
  · obtain ⟨below, ops, stmts, results, hs, -, hr, -, hsrc, -⟩ := emit_added rfl h
    refine ⟨stmts, hsrc, .inl ⟨ha, ?_⟩⟩
    change ite _ _ _ = _ at hr
    split at hr <;> cases hr
    rw [evaluateAll_eq, sum_eq_zero_of_fine (hops hs)]
    rfl
  · obtain ⟨below, ops, stmts, results, hs, -, hr, -, hsrc, -⟩ := emit_added rfl h
    refine ⟨stmts, hsrc, .inr ⟨ha, ?_⟩⟩
    change Go.return_ _ _ = _ at hr
    unfold Go.return_ at hr
    split at hr
    · cases ops with
      | nil => cases hr
      | cons o ops =>
        have ho : o = 0 := not_not.mp fun hne => hops hs o List.mem_cons_self hne
        rw [ho] at hr
        cases hr
        exact .inr rfl
    · cases hr
      exact .inl rfl

section
variable {func : Function} {variant : AbiVariant} {async_ : Bool}

/-- `call` for an export, taken apart. -/
theorem call_export_text (hW : ∀ types, (W.fieldOffsets types).map (·.2) = types)
    (hvariant : variant = .guestExport ∨ variant = .guestExportAsync)
    (hunpins : (W.wasmSignature variant func).indirectParams = true → c.unpinParams = true)
    {needs : Bool} (hneeds : guestExportNeedsPostReturn func = .ok needs)
    {s : GenState (functionGenerator W c)} (h : call W (B := functionGenerator W c) variant
      .liftArgsLowerResults func async_ State.new = .ok ((), s)) :
    Nonempty (ExportText func (W.wasmSignature variant func).indirectParams needs async_
      s.bindgen.src) := by
  obtain ⟨flatResults, toMemory, hflat, -, heq⟩ := @callLiftArgs_eq W (functionGenerator W c) func variant
    (W.wasmSignature variant func) async_ hvariant (callRealloc variant .liftArgsLowerResults async_)
  have hcall := call_export_inv h
  rw [heq] at hcall
  obtain ⟨_, s₁, hargs, hcall⟩ := bind_inv hcall
  obtain ⟨_, s₂, huser, hcall⟩ := bind_inv hcall
  obtain ⟨_, s₃, hresults, hcall⟩ := bind_inv hcall
  obtain ⟨_, s₄, hreturn, hrealloc⟩ := bind_inv hcall
  cases hrealloc
  obtain ⟨⟨lift, hlift⟩, -⟩ := added_of_steady hargs
    (exportArgs_extends (∀ t ∈ func.paramTypes, t.Valid) id) nofun
  obtain ⟨below, ops, hs₁, hops, hs₂, hsrc₂⟩ := callInterface_added huser
  obtain ⟨hload, hbelow⟩ := exportArgs_operands hW rfl hargs hs₁ hops
  have hfine₂ : ∀ o ∈ s₂.stack, FineOperand False o := fun o ho => by
    rcases hs₂ o ho with ho | rfl
    · exact hbelow o ho
    · exact fineOperand_zero
  have hlist : ∀ t ∈ func.result, t.HasList → needs = true := fun t ht hl => by
    unfold guestExportNeedsPostReturn at hneeds
    rw [Option.mem_def.mp ht] at hneeds
    exact needsDeallocate_of_hasList hl hneeds
  have hI : Stable (functionGenerator W c) (Admitted False (fun _ => needs = true) False)
      (Extends False (fun _ => needs = true) False s₂.bindgen) (FineOperand False) :=
    functionGenerator_stable False False s₂.bindgen id
  obtain ⟨⟨lower, hlower⟩, hfine₃⟩ := added_of_steady hresults
    (Keeps.exportResults hI admitted_getArg hvariant _ _ _ admitted_guestDeallocate
      fun t ht => lower_extends _ id (hlist t ht)) hfine₂
  obtain ⟨ret, hret, hretEq⟩ := returnResults_added hvariant hflat hreturn hfine₃
  refine ⟨⟨lift, c.unpinParams, ops, lower, ret, ?_, hlift.fine, hlower.fine, hunpins, hload,
    hretEq⟩⟩
  show s₄.bindgen.src = _
  rw [hret, hlower.src, hsrc₂, hlift.src]
  show ([] ++ lift ++ _ ++ lower ++ ret : Text Act) = _
  simp only [List.nil_append, List.append_assoc]

end

/-! ### Runs of an export -/

/-- A text that does not leave before an act does it in every whole run. -/
theorem mem_of_runs {done : Act} {before after : Text Act}
    (h : before.All (Act.leaves · = false)) (hdone : done.leaves = false) {t : List Act}
    {o : Outcome} (hr : Runs Act.leaves (before ++ Stmt.act done :: after) t o) (ho : o ≠ .cut) :
    done ∈ t := by
  rcases hr.of_append with ⟨hne, hcut⟩ | ⟨t₁, t₂, rfl, -, hr₂⟩
  · have hleft := hcut.not_left h
    cases o with
    | cut => exact absurd rfl ho
    | fell => exact absurd rfl hne
    | left => exact absurd rfl hleft
  · cases hr₂ with
    | cut => exact absurd rfl ho
    | act _ hr₂ => simp
    | leave ha => rw [hdone] at ha; cases ha

/-- What is allowed in a lowered or a lifted text. -/
theorem Fine.leaves {t : Text Act} {pins : Prop} (h : Fine loads pins armed t) :
    t.All (Act.leaves · = false) :=
  h.all.mono fun a ha => by cases a <;> first | rfl | exact ha.elim

theorem Fine.inner {t : Text Act} {pins : Prop} {d : Bool} (h : Fine loads pins armed t)
    (hd : pins → d = true) : t.All (Act.Inner d) := by
  refine h.all.mono fun a ha => ?_
  cases a with
  | load => exact ⟨nofun, nofun, nofun, nofun⟩
  | pin | allocate => exact ⟨nofun, nofun, nofun, fun _ => hd ha⟩
  | _ => exact ha.elim

theorem inner_evaluateAll {d : Bool} (ops : List Operand) : (evaluateAll ops).All (Act.Inner d) := by
  rw [evaluateAll_eq]
  refine .acts fun a ha => ?_
  rw [List.eq_of_mem_replicate ha]
  exact ⟨nofun, nofun, nofun, nofun⟩

theorem leaves_evaluateAll (ops : List Operand) : (evaluateAll ops).All (Act.leaves · = false) := by
  rw [evaluateAll_eq]
  refine .acts fun a ha => ?_
  rw [List.eq_of_mem_replicate ha]
  rfl

section
variable {func : Function} {indirect needs async_ : Bool} {src : Text Act}

theorem ExportText.inner (e : ExportText func indirect needs async_ src) :
    src.All (Act.Inner needs) := by
  have hunpin : ((if e.unpinParams then [Stmt.act Act.unpinRuntime] else []) : Text Act).All
      (Act.Inner needs) := by
    cases e.unpinParams with
    | false => exact .nil
    | true => exact .single ⟨nofun, nofun, nofun, nofun⟩
  have hret : e.ret.All (Act.Inner needs) := by
    rcases e.ret_eq with ⟨-, hr⟩ | ⟨-, hr | hr⟩ <;> rw [hr]
    · exact .single ⟨nofun, nofun, nofun, nofun⟩
    · exact .nil
    · exact .single ⟨nofun, nofun, nofun, nofun⟩
  rw [e.src_eq]
  refine (e.lift_fine.inner False.elim).append ?_
  refine ((((hunpin.append (inner_evaluateAll _)).append (.single ?_)).append
    (e.lower_fine.inner id)).append hret)
  exact ⟨nofun, nofun, nofun, nofun⟩

theorem ExportText.taskReturn (e : ExportText func indirect needs true src) {t : List Act}
    {o : Outcome} (hr : Runs Act.leaves src t o) (ho : o ≠ .cut) : .taskReturn ∈ t := by
  have hret : e.ret = [Stmt.act .taskReturn] := by
    rcases e.ret_eq with ⟨-, h⟩ | ⟨h, -⟩
    · exact h
    · cases h
  have hunpin : ((if e.unpinParams then [Stmt.act Act.unpinRuntime] else []) : Text Act).All
      (Act.leaves · = false) := by
    cases e.unpinParams with
    | false => exact .nil
    | true => exact .single rfl
  rw [e.src_eq, hret, ← List.append_assoc] at hr
  refine mem_of_runs ?_ rfl hr ho
  exact e.lift_fine.leaves.append (((hunpin.append (leaves_evaluateAll _)).append
    (.single rfl)).append e.lower_fine.leaves)

/-- The discipline of loads fails where the arguments are residual. -/
theorem ExportText.loaded_iff (e : ExportText func indirect needs async_ src)
    (hvalid : ∀ t ∈ func.paramTypes, t.Valid) :
    (∀ t o, Runs Act.leaves src t o → LoadsBefore t) ↔
      ¬(indirect = true ∧ ∃ t ∈ func.paramTypes, t.Residual) := by
  rw [← e.args_load, not_not]
  constructor
  · intro hl
    by_contra hne
    obtain ⟨hind, -⟩ := e.args_load.mp hne
    obtain ⟨n, hn⟩ := Nat.exists_eq_succ_of_ne_zero hne
    obtain ⟨t, ht⟩ := Runs.exists_fell (e.lift_fine.inhabited hvalid) e.lift_fine.leaves
    have hrest : Runs Act.leaves ((if e.unpinParams then [Stmt.act Act.unpinRuntime] else []) ++
        evaluateAll e.args ++ [Stmt.act Act.callUser] ++ e.lower ++ e.ret) [Act.unpinRuntime, .load] .cut := by
      rw [e.unpins hind, evaluateAll_eq, hn, List.replicate_succ]
      exact .act rfl (.act rfl .cut)
    have hrun := ht.append hrest
    rw [← e.src_eq] at hrun
    exact hl _ _ hrun t [Act.load] rfl List.mem_cons_self
  · intro hzero t o hr
    have hrest : Text.All (· ≠ Act.load) ((if e.unpinParams then [Stmt.act Act.unpinRuntime] else []) ++
        evaluateAll e.args ++ [Stmt.act Act.callUser] ++ e.lower ++ e.ret) := by
      have hunpin : ((if e.unpinParams then [Stmt.act Act.unpinRuntime] else []) : Text Act).All
          (· ≠ Act.load) := by
        cases e.unpinParams with
        | false => exact .nil
        | true => exact .single nofun
      have hargs : (evaluateAll e.args).All (· ≠ Act.load) := by
        rw [evaluateAll_eq, hzero]
        exact .nil
      have hlower : e.lower.All (· ≠ Act.load) := e.lower_fine.all.mono fun a ha => by
        rintro rfl
        exact ha
      have hret : e.ret.All (· ≠ Act.load) := by
        rcases e.ret_eq with ⟨-, hr⟩ | ⟨-, hr | hr⟩ <;> rw [hr]
        · exact .single nofun
        · exact .nil
        · exact .single nofun
      have huser : Text.All (· ≠ Act.load) [Stmt.act Act.callUser] := .single nofun
      exact (((hunpin.append hargs).append huser).append hlower).append hret
    have hlift : e.lift.All (· ≠ Act.unpinRuntime) := e.lift_fine.all.mono fun a ha => by
      rintro rfl
      exact ha
    rw [e.src_eq] at hr
    rcases hr.of_append with ⟨-, hr⟩ | ⟨t₁, t₂, rfl, hr₁, hr₂⟩
    · exact loadsBefore_of_not_mem fun hmem => hr.all hlift _ hmem rfl
    · rw [loadsBefore_append_left fun hmem => hr₁.all hlift _ hmem rfl]
      intro pre post ht hmem
      refine hr₂.all hrest .load ?_ rfl
      rw [ht]
      exact List.mem_append_right _ (List.mem_cons_of_mem _ hmem)

end

theorem except_bind_inv {α β : Type} {x : Except Panic α} {f : α → Except Panic β} {b : β}
    (h : (x >>= f) = .ok b) : ∃ a, x = .ok a ∧ f a = .ok b := by
  cases x with
  | error e => cases h
  | ok a => exact ⟨a, rfl, h⟩

def exportVariant (async_ : Bool) : AbiVariant := if async_ then .guestExportAsync else .guestExport

theorem goExport_inv {func : Function} {name : String} {async_ : Bool} {g : Generated}
    (h : goExport W func name async_ = .ok g) : ∃ c needs s,
      ((W.wasmSignature (exportVariant async_) func).indirectParams = true →
        c.unpinParams = true) ∧
      guestExportNeedsPostReturn func = .ok needs ∧
      call W (B := functionGenerator W c) (exportVariant async_) .liftArgsLowerResults func async_
        State.new = .ok ((), s) ∧
      g = ⟨(if needs then [Stmt.act Act.define] else []) ++ s.bindgen.src, async_ && needs,
        !async_ && needs⟩ := by
  obtain ⟨_, -, h⟩ := except_bind_inv h
  change ite ((W.wasmSignature (exportVariant async_) func).indirectParams = true) _ _ = _ at h
  by_cases hind : (W.wasmSignature (exportVariant async_) func).indirectParams = true
  · rw [if_pos hind] at h
    obtain ⟨unpinParams, hunpin, h⟩ := except_bind_inv h
    obtain ⟨⟨_, s⟩, hcall, h⟩ := except_bind_inv h
    obtain ⟨needs, hneeds, h⟩ := except_bind_inv h
    cases hunpin
    cases h
    exact ⟨_, needs, s, fun _ => rfl, hneeds, hcall, rfl⟩
  · rw [if_neg hind] at h
    obtain ⟨unpinParams, -, h⟩ := except_bind_inv h
    obtain ⟨⟨_, s⟩, hcall, h⟩ := except_bind_inv h
    obtain ⟨needs, hneeds, h⟩ := except_bind_inv h
    cases h
    exact ⟨_, needs, s, fun hi => absurd hi hind, hneeds, hcall, rfl⟩

/-- An export keeps the discipline unless a residual argument comes in memory. -/
theorem goExport_disciplined_iff (hW : ∀ types, (W.fieldOffsets types).map (·.2) = types)
    {func : Function} {name : String} {async_ : Bool} {g : Generated}
    (h : goExport W func name async_ = .ok g) (hvalid : ∀ t ∈ func.paramTypes, t.Valid) :
    Disciplined (hostDone .export_ async_) g ↔
      ¬((W.wasmSignature (exportVariant async_) func).indirectParams = true ∧
        ∃ t ∈ func.paramTypes, t.Residual) := by
  obtain ⟨c, needs, s, hunpins, hneeds, hcall, rfl⟩ := goExport_inv h
  have hvariant : exportVariant async_ = .guestExport ∨ exportVariant async_ = .guestExportAsync := by
    cases async_ <;> simp [exportVariant]
  obtain ⟨e⟩ := call_export_text hW hvariant hunpins hneeds hcall
  have hshaped : Shaped (hostDone .export_ async_) ⟨(if needs then [Stmt.act Act.define] else []) ++
      s.bindgen.src, async_ && needs, !async_ && needs⟩ needs s.bindgen.src := by
    refine ⟨rfl, e.inner, ?_, fun hd t o hr ho => ?_, fun hp => ?_⟩
    · cases async_ <;> simp
    · obtain ⟨rfl, -⟩ := Bool.and_eq_true_iff.mp hd
      exact e.taskReturn hr ho
    · obtain ⟨ha, -⟩ := Bool.and_eq_true_iff.mp hp
      rw [Bool.not_eq_true'] at ha
      rw [ha]
      rfl
  rw [hshaped.disciplined_iff]
  exact e.loaded_iff hvalid

/-! ## Imports -/

/-- The acts of an import: it releases nothing that it did not allocate. -/
def Act.Importing (d : Bool) (a : Act) : Prop := a.Inner d ∧ a ≠ Act.unpinRuntime

/-- The text of an import around the act by which the host is done. -/
structure ImportText (done : Act) (pinned : Bool) (code : Text Act) where
  before : Text Act
  after : Text Act
  code_eq : code = before ++ Stmt.act done :: after
  leaves : before.All (Act.leaves · = false)
  inner : code.All (Act.Importing pinned)

theorem Fine.importing {t : Text Act} {pins : Prop} {d : Bool} (h : Fine loads pins armed t)
    (hd : pins → d = true) : t.All (Act.Importing d) := by
  refine h.all.mono fun a ha => ?_
  cases a with
  | load => exact ⟨⟨nofun, nofun, nofun, nofun⟩, nofun⟩
  | pin | allocate => exact ⟨⟨nofun, nofun, nofun, fun _ => hd ha⟩, nofun⟩
  | _ => exact ha.elim

theorem importing_evaluateAll {d : Bool} (ops : List Operand) :
    (evaluateAll ops).All (Act.Importing d) := by
  rw [evaluateAll_eq]
  refine .acts fun a ha => ?_
  rw [List.eq_of_mem_replicate ha]
  exact ⟨⟨nofun, nofun, nofun, nofun⟩, nofun⟩

theorem fineOperand_true (x : Operand) : FineOperand True x := fun _ => trivial

theorem callWasm_added {name : String} {sig : WasmSignature}
    {s s' : GenState (functionGenerator W c)} (h : emit W (.callWasm name sig) s = .ok ((), s')) :
    ∃ ops, s'.bindgen.src = s.bindgen.src ++ (evaluateAll ops ++ [Stmt.act Act.callHost]) ∧
      s'.bindgen.needPinner = s.bindgen.needPinner := by
  obtain ⟨below, ops, stmts, results, -, -, hr, -, hsrc, hneed⟩ := emit_added rfl h
  change callWasm _ _ = _ at hr
  refine ⟨ops, ?_, by rw [hneed]; exact Bool.or_false _⟩
  unfold callWasm at hr
  split at hr <;> cases hr <;> exact hsrc

theorem return_added {amt : Nat} {func : Function} {s s' : GenState (functionGenerator W c)}
    (h : emit W (.return_ amt func) s = .ok ((), s')) :
    ∃ ret, s'.bindgen.src = s.bindgen.src ++ ret ∧ (∀ d, ret.All (Act.Importing d)) ∧
      s'.bindgen.needPinner = s.bindgen.needPinner := by
  obtain ⟨below, ops, stmts, results, -, -, hr, -, hsrc, hneed⟩ := emit_added rfl h
  refine ⟨stmts, hsrc, fun d => ?_, by rw [hneed]; exact Bool.or_false _⟩
  change Go.return_ _ _ = _ at hr
  unfold Go.return_ at hr
  split at hr
  · cases ops with
    | nil => cases hr
    | cons o ops =>
      cases hr
      have hvalue : (evaluate o).All (Act.Importing d) := by
        have h := importing_evaluateAll (d := d) [o]
        rwa [evaluateAll, List.flatMap_singleton] at h
      exact hvalue.append (.single ⟨⟨nofun, nofun, nofun, nofun⟩, nofun⟩)
  · cases hr
    exact .nil

theorem call_import_text {func : Function} {s : GenState (functionGenerator W c)}
    (h : call W (B := functionGenerator W c) .guestImport .lowerArgsLiftResults func false
      State.new = .ok ((), s)) :
    Nonempty (ImportText .callHost s.bindgen.needPinner s.bindgen.src) := by
  have hcall := call_import_inv h
  have heq := callLowerArgs_eq (W := W) (B := functionGenerator W c) func
    (W.wasmSignature .guestImport func)
  have hrealloc : callRealloc .guestImport .lowerArgsLiftResults false = .none := rfl
  rw [hrealloc, heq] at hcall
  obtain ⟨_, s₁, hlower, hcall⟩ := bind_inv hcall
  obtain ⟨_, s₂, hwasm, hcall⟩ := bind_inv hcall
  obtain ⟨_, s₃, hlift, hreturn⟩ := bind_inv hcall
  have hI : Stable (functionGenerator W c) (Admitted True (fun b => b = true) False)
      (Extends True (fun b => b = true) False State.new) (FineOperand True) :=
    functionGenerator_stable True False State.new nofun
  obtain ⟨⟨lower, hlower⟩, -⟩ := added_of_steady hlower
    (Keeps.importCall hI admitted_getArg fun t _ => lower_extends (fun b => b = true) nofun fun _ => rfl) nofun
  obtain ⟨ops, hsrc₂, hneed₂⟩ := callWasm_added hwasm
  have hI' : Stable (functionGenerator W c) (Admitted True (fun _ => False) False)
      (Extends True (fun _ => False) False s₂.bindgen) (FineOperand True) :=
    functionGenerator_stable True False s₂.bindgen id
  obtain ⟨⟨lift, hlift⟩, -⟩ := added_of_steady hlift
    (Keeps.liftResults hI' fineOperand_true admitted_flush fun t _ => lift_extends False.elim)
      fun o _ => fineOperand_true o
  obtain ⟨ret, hsrc, hret, hneed⟩ := return_added hreturn
  have hneeds : s₁.bindgen.needPinner = true → s.bindgen.needPinner = true := fun hn => by
    rw [hneed]
    exact hlift.needPinner (by rw [hneed₂]; exact hn)
  have hcode : s.bindgen.src = (lower ++ evaluateAll ops) ++ Stmt.act Act.callHost :: (lift ++ ret) := by
    rw [hsrc, hlift.src, hsrc₂, hlower.src]
    show ([] ++ lower ++ (evaluateAll ops ++ [Stmt.act Act.callHost]) ++ lift ++ ret : Text Act) = _
    simp
  refine ⟨⟨lower ++ evaluateAll ops, lift ++ ret, hcode,
    hlower.fine.leaves.append (leaves_evaluateAll ops), ?_⟩⟩
  rw [hcode]
  refine ((hlower.fine.importing hneeds).append (importing_evaluateAll ops)).append
    (.cons (.act ⟨⟨nofun, nofun, nofun, nofun⟩, nofun⟩) ?_)
  exact (hlift.fine.importing False.elim).append (hret _)

/-! ### Async imports -/

theorem added_lowerToMemory {ty : Ty} {s s' : State}
    (h : Abi.lowerToMemory W (B := functionGenerator W c) (0 : Nat) (0 : Nat) ty s = .ok s') :
    ∃ t, Added True (fun b => b = true) False s s' t := by
  obtain ⟨⟨_, s₁⟩, hwrite, h⟩ := except_bind_inv h
  cases h
  exact (added_of_steady hwrite ((lower_extends (fun b => b = true) nofun fun _ => rfl).2 _ _ (fineOperand_true _))
    fun o _ => fineOperand_true o).1

theorem added_lowerFlat {ty : Ty} {s s' : State} {ops : List Operand}
    (h : Abi.lowerFlat W (B := functionGenerator W c) (0 : Nat) ty s = .ok (ops, s')) :
    ∃ t, Added True (fun b => b = true) False s s' t := by
  obtain ⟨⟨_, s₁⟩, hlower, h⟩ := except_bind_inv h
  cases h
  exact (added_of_steady hlower (lower_extends (fun b => b = true) nofun fun _ => rfl).1
    fun o _ => fineOperand_true o).1

theorem added_liftFromMemory {ty : Ty} {s s' : State} {op : Operand}
    (h : Abi.liftFromMemory W (B := functionGenerator W c) (0 : Nat) ty s = .ok (op, s')) :
    ∃ t, Added True (fun _ => False) False s s' t := by
  obtain ⟨⟨_, s₁⟩, hread, h⟩ := except_bind_inv h
  obtain ⟨⟨x, s₂⟩, hpop, h⟩ := except_bind_inv h
  cases h
  have hsame : s₂.bindgen = s₁.bindgen := by
    unfold pop at hpop
    split at hpop <;> cases hpop
    rfl
  rw [hsame]
  exact (added_of_steady hread ((lift_extends False.elim).2 _ _ (fineOperand_true _)) nofun).1

/-- What is added for one type after the other. -/
theorem added_foldlM (pins : Bool → Prop) {α β : Type} {xs : List α} {f : β → α → Except Panic β} (state : β → State)
    (hpins : pins false → pins true)
    (hf : ∀ b x b', f b x = .ok b' → ∃ t, Added loads pins armed (state b) (state b') t)
    {b b' : β} (h : xs.foldlM f b = .ok b') : ∃ t, Added loads pins armed (state b) (state b') t := by
  induction xs generalizing b with
  | nil => cases h; exact ⟨[], .refl _⟩
  | cons x xs ih =>
    rw [List.foldlM_cons] at h
    obtain ⟨b₁, h₁, h₂⟩ := except_bind_inv h
    obtain ⟨t, ht⟩ := hf b x b₁ h₁
    obtain ⟨u, hu⟩ := ih h₂
    exact ⟨t ++ u, ht.trans hpins hu⟩

theorem importAsyncLower_text {func : Function} {sig : WasmSignature} {code : Text Act}
    {ops : List Operand} {s : State}
    (h : importAsyncLower W c func sig State.new = .ok (code, ops, s)) :
    code.All (Act.leaves · = false) ∧ ∀ d, (s.needPinner = true → d = true) →
      code.All (Act.Importing d) := by
  unfold importAsyncLower at h
  split at h
  · obtain ⟨s₁, hfold, h⟩ := except_bind_inv h
    cases h
    obtain ⟨t, ht⟩ := added_foldlM (fun b => b = true) id nofun (fun _ _ _ h => added_lowerToMemory h) hfold
    have hsrc : s₁.src = t := ht.src
    rw [hsrc]
    have hallocate : ∀ d, d = true → Act.Importing d .allocate := fun d hd =>
      ⟨⟨nofun, nofun, nofun, fun _ => hd⟩, nofun⟩
    exact ⟨.cons (.act rfl) ht.fine.leaves,
      fun d hd => .cons (.act (hallocate d (hd rfl))) (ht.fine.importing fun _ => hd rfl)⟩
  · obtain ⟨⟨ops', s₁⟩, hfold, h⟩ := except_bind_inv h
    cases h
    obtain ⟨t, ht⟩ := added_foldlM (fun b => b = true) Prod.snd nofun (fun b x b' h => by
      obtain ⟨⟨ops, s⟩, hlower, h⟩ := except_bind_inv h
      cases h
      exact added_lowerFlat hlower) hfold
    have hsrc : s₁.src = t := ht.src
    rw [hsrc]
    exact ⟨ht.fine.leaves, fun d hd => ht.fine.importing hd⟩

theorem importAsyncLift_text {func : Function} {code : Text Act} {s s' : State}
    (h : importAsyncLift W c func s = .ok (code, s')) (hs : s.src = []) :
    (∀ d, code.All (Act.Importing d)) ∧ (s.needPinner = true → s'.needPinner = true) := by
  unfold importAsyncLift at h
  split at h
  · cases h
    exact ⟨fun d => .nil, id⟩
  · next ty _ =>
    obtain ⟨⟨op, s₁⟩, hlift, h⟩ := except_bind_inv h
    cases h
    obtain ⟨t, ht⟩ := added_liftFromMemory hlift
    refine ⟨fun d => ?_, ht.needPinner⟩
    have hop := importing_evaluateAll (d := d) [op]
    rw [evaluateAll, List.flatMap_singleton] at hop
    rw [ht.src, hs, List.nil_append]
    exact ((ht.fine.importing False.elim).append hop).append
      (.single ⟨⟨by simp, by simp, by simp, by simp⟩, by simp⟩)

theorem importCode_text {func : Function} {async_ : Bool} {code : Text Act} {s : State}
    (h : importCode W c func async_ = .ok (code, s)) :
    Nonempty (ImportText (hostDone .import_ async_) s.needPinner code) := by
  cases async_ with
  | false =>
    obtain ⟨⟨_, s₁⟩, hcall, h⟩ := except_bind_inv h
    cases h
    exact call_import_text hcall
  | true =>
    obtain ⟨⟨lower, ops, s₁⟩, hlower, h⟩ := except_bind_inv h
    obtain ⟨⟨lift, s₂⟩, hlift, h⟩ := except_bind_inv h
    cases h
    obtain ⟨hleaves, hlower'⟩ := importAsyncLower_text hlower
    have hsrc : s₁.src = [] := by
      unfold importAsyncLower at hlower
      split at hlower
      · obtain ⟨_, -, hlower⟩ := except_bind_inv hlower
        cases hlower
        rfl
      · obtain ⟨_, -, hlower⟩ := except_bind_inv hlower
        cases hlower
        rfl
    obtain ⟨hlift', hneed⟩ := importAsyncLift_text hlift hsrc
    generalize ops ++ (if func.result.isSome then [0] else []) = args
    refine ⟨⟨lower ++ evaluateAll args ++ [Stmt.act Act.callHost], lift, by simp [hostDone], ?_, ?_⟩⟩
    · exact (hleaves.append (leaves_evaluateAll args)).append (.single rfl)
    · have hcalls : Text.All (Act.Importing s.needPinner) [Stmt.act Act.callHost, .act .wait] :=
        .cons (.act ⟨⟨nofun, nofun, nofun, nofun⟩, nofun⟩)
          (.single ⟨⟨nofun, nofun, nofun, nofun⟩, nofun⟩)
      exact (((hlower' _ hneed).append (importing_evaluateAll args)).append hcalls).append
        (hlift' _)

/-- Every import keeps the discipline. -/
theorem goImport_disciplined {func : Function} {async_ : Bool} {g : Generated}
    (h : goImport W func async_ = .ok g) : Disciplined (hostDone .import_ async_) g := by
  obtain ⟨_, -, h⟩ := except_bind_inv h
  obtain ⟨⟨code, s⟩, hcode, h⟩ := except_bind_inv h
  cases h
  obtain ⟨e⟩ := importCode_text hcode
  generalize (if async_ then func.result.isSome else !isEmpty s.returnAreaSize) = returnArea
  have hmono : ∀ a, Act.Importing s.needPinner a → Act.Inner (s.needPinner || returnArea) a := by
    rintro a ⟨⟨hdefine, hunpin, hexit, hpins⟩, -⟩
    exact ⟨hdefine, hunpin, hexit, fun ha => by rw [hpins ha, Bool.true_or]⟩
  have harea : ((if returnArea then [Stmt.act Act.allocate] else []) : Text Act).All
      (Act.Inner (s.needPinner || returnArea)) := by
    cases returnArea with
    | false => exact .nil
    | true => exact .single ⟨nofun, nofun, nofun, fun _ => Bool.or_true _⟩
  have hareaLeaves : ((if returnArea then [Stmt.act Act.allocate] else []) : Text Act).All
      (Act.leaves · = false) := by
    cases returnArea with
    | false => exact .nil
    | true => exact .single rfl
  have hareaKeeps : ((if returnArea then [Stmt.act Act.allocate] else []) : Text Act).All
      (· ≠ Act.unpinRuntime) := by
    cases returnArea with
    | false => exact .nil
    | true => exact .single nofun
  have hshaped : Shaped (hostDone .import_ async_) ⟨(if s.needPinner || returnArea then
        [Stmt.act Act.define] else []) ++ (if returnArea then [Stmt.act Act.allocate] else []) ++ code,
      s.needPinner || returnArea, false⟩ (s.needPinner || returnArea)
      ((if returnArea then [Stmt.act Act.allocate] else []) ++ code) := by
    refine ⟨List.append_assoc .., harea.append (e.inner.mono hmono), ⟨Bool.or_false _, nofun⟩,
      fun _ t o hr ho => ?_, nofun⟩
    rw [e.code_eq, ← List.append_assoc] at hr
    have hdone : (hostDone .import_ async_).leaves = false := by cases async_ <;> rfl
    exact mem_of_runs (hareaLeaves.append e.leaves) hdone hr ho
  rw [hshaped.disciplined_iff]
  intro t o hr
  have hkeeps := hareaKeeps.append (e.inner.mono fun a ha => ha.2)
  exact loadsBefore_of_not_mem fun hmem => hr.all hkeeps _ hmem rfl

/-! ## The discipline -/

/-- Every function keeps the discipline, but for exports that take a residual argument from
memory: the load in its expression is run after the release of that memory. -/
theorem goFunction_disciplined_iff {p : Nat} (hW : W.Lawful p) (side : Side) (func : Function) (name : String)
    (async_ : Bool) {g : Generated} (h : goFunction W side func name async_ = .ok g)
    (hvalid : ∀ t ∈ func.paramTypes, t.Valid) : Disciplined (hostDone side async_) g ↔
      ¬(side = .export_ ∧ (W.wasmSignature (exportVariant async_) func).indirectParams = true ∧
        ∃ t ∈ func.paramTypes, t.Residual) := by
  cases side with
  | import_ =>
    refine iff_of_true (goImport_disciplined h) fun hs => ?_
    cases hs.1
  | export_ =>
    rw [goExport_disciplined_iff hW.fieldOffsets_types h hvalid]
    exact not_congr ⟨fun hs => ⟨rfl, hs⟩, fun hs => hs.2⟩

/-! ### A function with seventeen parameters -/

/-- `export f: func(p0: u32, …, p16: u32);` -/
def wideFunction : Function :=
  ⟨"f", .freestanding, (List.range 17).map fun i => ("p" ++ toString i, .prim .u32), none⟩

def wideSignature : WasmSignature := ⟨[.pointer], [], true, false⟩

def wideConfig (paramNames : Nat) : Config := ⟨some "f", paramNames, true, false⟩

theorem wasmSignature_wide :
    WitParser.canonical.wasmSignature .guestExport wideFunction = wideSignature := by
  have hflat : (wideFunction.paramTypes.map Ty.pushFlat).flatten = List.replicate 17 .i32 := by
    have hparams : wideFunction.paramTypes = List.replicate 17 (.prim .u32) := rfl
    rw [hparams, List.map_replicate, Ty.pushFlat]
    rfl
  show wasmSignature .guestExport wideFunction = _
  unfold wasmSignature flatParams
  rw [hflat]
  rfl

section
variable {c : Config}

theorem emit_writes (i : Instruction) (s : GenState (functionGenerator .canonical c))
    (ops results : List Operand) (lines : Text Act) (hops : i.operandsLen .canonical = ops.length)
    (hresults : i.resultsLen .canonical = results.length) (hblocks : blocksTaken i = 0)
    (hr : render .canonical c i ops [] = .ok (lines, results)) :
    ∃ s', (emit .canonical i : GoGen .canonical c Unit) { s with stack := s.stack ++ ops } = .ok ((), s') ∧
      s'.stack = s.stack ++ results ∧ s'.realloc = s.realloc ∧
      (lines = [] → i.allocates = false → s' = { s with stack := s.stack ++ results }) := by
  obtain ⟨⟨src, storage, blocks, need, size⟩, stack, ptr, realloc⟩ := s
  unfold emit
  simp [hops, hresults, hblocks, hr, bind, Except.bind]
  rintro rfl hneed
  exact ⟨by simp, by simp [hneed]⟩

theorem emit_run (i : Instruction) (s : GenState (functionGenerator .canonical c))
    (ops results : List Operand) (hops : i.operandsLen .canonical = ops.length)
    (hresults : i.resultsLen .canonical = results.length) (hblocks : blocksTaken i = 0)
    (hneed : i.allocates = false) (hr : render .canonical c i ops [] = .ok ([], results)) :
    (emit .canonical i : GoGen .canonical c Unit) { s with stack := s.stack ++ ops } =
      .ok ((), { s with stack := s.stack ++ results }) := by
  obtain ⟨s', hs, -, -, heq⟩ := emit_writes i s ops results [] hops hresults hblocks hr
  rw [hs, heq rfl hneed]

theorem readFromMemory_u32 (offset : ArchitectureSize)
    (s : GenState (functionGenerator .canonical c)) :
    (readFromMemory .canonical (.prim .u32) (0 : Nat) offset : GoGen .canonical c Unit) s =
      .ok ((), { s with stack := s.stack ++ [1] }) := by
  rw [readFromMemory, lift]
  have hload := emit_run (.i32Load offset) s [0] [1] rfl rfl rfl rfl rfl
  have hwrap := emit_run .u32FromI32 s [1] [1] rfl rfl rfl rfl rfl
  exact (bind_ok rfl).trans ((bind_ok hload).trans hwrap)

theorem forEachParam_u32 (n : Nat) (offset : ArchitectureSize)
    (s : GenState (functionGenerator .canonical c)) :
    (forEachParam .canonical ((List.replicate n (Ty.prim .u32)).map fun t =>
      (t, readFromMemory .canonical t (0 : Nat))) offset : GoGen .canonical c Unit) s =
      .ok ((), { s with stack := s.stack ++ List.replicate n 1 }) := by
  induction n generalizing offset s with
  | zero =>
    have hs : s.stack ++ List.replicate 0 1 = s.stack := List.append_nil _
    rw [hs]
    rfl
  | succ n ih =>
    rw [List.replicate_succ, List.map_cons, forEachParam]
    refine (bind_ok (readFromMemory_u32 _ s)).trans ((ih _ _).trans ?_)
    simp [List.replicate_succ]

theorem exportArgs_wide (hc : 0 < c.paramNames) :
    (exportArgs .canonical wideFunction wideSignature : GoGen .canonical c Unit)
      (GenState.new State.new) =
      .ok ((), { GenState.new State.new with stack := List.replicate 17 1 }) := by
  have hget := emit_run (.getArg 0) (GenState.new State.new) [] [0] rfl rfl rfl rfl (if_pos hc)
  exact (bind_ok hget).trans (forEachParam_u32 17 default (GenState.new State.new))

theorem exportResults_wide (s : GenState (functionGenerator .canonical c)) (hc : 0 < c.paramNames) :
    ∃ s', (exportResults .canonical wideFunction .guestExport wideSignature (.export_ "cabi_realloc")
      false false : GoGen .canonical c Unit) s = .ok ((), s') ∧ s'.stack = s.stack := by
  have hget := emit_run (.getArg 0) s [] [0] rfl rfl rfl rfl (if_pos hc)
  rw [List.append_nil] at hget
  obtain ⟨s₁, hs₁, hstack₁, -, -⟩ := emit_writes (c := c) (.guestDeallocate
    (WitParser.canonical.record wideFunction.paramTypes).size
    (WitParser.canonical.record wideFunction.paramTypes).align) s [0] [] _ rfl rfl rfl rfl
  have hfree : (freeParams .canonical wideFunction .guestExport wideSignature false :
      GoGen .canonical c Unit) s = .ok ((), s₁) := (bind_ok hget).trans hs₁
  exact ⟨{ s₁ with realloc := some (.export_ "cabi_realloc") }, bind_ok hfree,
    hstack₁.trans (List.append_nil _)⟩

end

theorem call_wide {n : Nat} (hn : 0 < n) : ∃ s, call .canonical
    (B := functionGenerator .canonical (wideConfig n)) .guestExport .liftArgsLowerResults
    wideFunction false State.new = .ok ((), s) := by
  obtain ⟨n, rfl⟩ := Nat.exists_eq_add_of_lt hn
  rw [Nat.zero_add]
  obtain ⟨flatResults, toMemory, hflat, hmemory, heq⟩ := @callLiftArgs_eq .canonical
    (functionGenerator .canonical (wideConfig (n + 1))) wideFunction .guestExport wideSignature
    false (.inl rfl) (.export_ "cabi_realloc")
  have hnone : flatResults = none := by cases flatResults <;> first | rfl | cases hflat
  subst hnone
  obtain rfl : toMemory = false := hmemory rfl
  have hcall := emit_writes (c := wideConfig (n + 1)) (.callInterface wideFunction false)
    (GenState.new State.new) (List.replicate 17 (1 : Nat)) [] _ rfl rfl rfl rfl
  obtain ⟨s₁, hs₁, hstack₁, -, -⟩ := hcall
  have hresults := exportResults_wide (c := wideConfig (n + 1)) s₁ n.succ_pos
  obtain ⟨s₂, hs₂, hstack₂⟩ := hresults
  have hreturn := emit_writes (c := wideConfig (n + 1)) (.return_ 0 wideFunction) s₂ [] [] _ rfl rfl rfl rfl
  obtain ⟨s₃, hs₃, hstack₃, -, -⟩ := hreturn
  have hs : (emit .canonical (.callInterface wideFunction false) >>= fun _ =>
      exportResults .canonical wideFunction .guestExport wideSignature (.export_ "cabi_realloc")
        false false >>= fun _ =>
      returnResults .canonical wideFunction .guestExport wideSignature none false >>= fun _ =>
      setRealloc none : GoGen .canonical (wideConfig (n + 1)) Unit)
        { GenState.new State.new with stack := List.replicate 17 (1 : Nat) } =
      .ok ((), { s₃ with realloc := none }) := by
    rw [List.append_nil] at hs₃
    have hresult : (returnResults .canonical wideFunction .guestExport wideSignature none false :
        GoGen .canonical (wideConfig (n + 1)) Unit) s₂ = .ok ((), s₃) := hs₃
    exact (bind_ok hs₁).trans ((bind_ok hs₂).trans (bind_ok hresult))
  have hstack : s₃.stack = [] := by rw [hstack₃, hstack₂, hstack₁]; rfl
  have hargs := exportArgs_wide (c := wideConfig (n + 1)) n.succ_pos
  have harm : (callLiftArgs .canonical wideFunction .guestExport wideSignature
      (.export_ "cabi_realloc") false : GoGen .canonical (wideConfig (n + 1)) Unit)
        (GenState.new State.new) = .ok ((), { s₃ with realloc := none }) := by
    rw [heq]
    exact (bind_ok hargs).trans hs
  rw [← wasmSignature_wide] at harm
  refine ⟨{ s₃ with realloc := none }, (bind_ok rfl).trans ((bind_ok harm).trans ?_)⟩
  obtain ⟨bindgen, stack, ptr, realloc⟩ := s₃
  cases hstack
  rfl

theorem goExport_wide : ∃ g, goExport .canonical wideFunction "f" false = .ok g := by
  have hsig := wasmSignature_wide
  have hone : assertOneResult (WitParser.canonical.wasmSignature .guestExport wideFunction) =
      .ok () := by rw [hsig]; rfl
  have hind : (WitParser.canonical.wasmSignature .guestExport wideFunction).indirectParams =
      true := by rw [hsig]; rfl
  have hneeds : guestExportNeedsPostReturn wideFunction = .ok false := rfl
  obtain ⟨s, hs⟩ := call_wide (n := (WitParser.canonical.wasmSignature .guestExport
    wideFunction).params.length) (by rw [hsig]; exact Nat.one_pos)
  unfold wideConfig at hs
  simp [goExport, hone, hind, hneeds, bind, Except.bind, hs]

theorem valid_wide : ∀ t ∈ wideFunction.paramTypes, t.Valid := by
  have hparams : wideFunction.paramTypes = List.replicate 17 (.prim .u32) := rfl
  intro t ht
  rw [hparams] at ht
  rw [List.eq_of_mem_replicate ht]
  exact .prim .u32

theorem goFunction_disciplined_iff_wide : ∃ g,
    goFunction .canonical .export_ wideFunction "f" false = .ok g ∧
      (Disciplined (hostDone .export_ false) g ↔ ¬(Side.export_ = .export_ ∧
        (WitParser.canonical.wasmSignature (exportVariant false) wideFunction).indirectParams
          = true ∧ ∃ t ∈ wideFunction.paramTypes, t.Residual)) := by
  obtain ⟨g, hg⟩ := goExport_wide
  exact ⟨g, hg, goFunction_disciplined_iff canonical_lawful .export_ wideFunction "f" false hg valid_wide⟩

/-- The seventeen words are loaded after `witRuntime.Unpin()`. -/
theorem export_loads_after_release : ∃ g,
    goFunction .canonical .export_ wideFunction "f" false = .ok g ∧
      ¬Disciplined (hostDone .export_ false) g := by
  obtain ⟨g, hg⟩ := goExport_wide
  refine ⟨g, hg, fun hd => ?_⟩
  have hind : (WitParser.canonical.wasmSignature (exportVariant false) wideFunction).indirectParams
      = true := (congrArg WasmSignature.indirectParams wasmSignature_wide).trans rfl
  exact (goExport_disciplined_iff canonical_lawful.fieldOffsets_types hg valid_wide).mp hd
    ⟨hind, .prim .u32, List.mem_cons_self, .prim⟩

end WitBindgen.Go
