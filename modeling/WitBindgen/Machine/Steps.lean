import WitBindgen.Machine.Semantics
import WitBindgen.Canon.Lowered
import WitBindgen.Canon.Loaded

/-!
# Steps of recorded code

What one recorded instruction, one block run for its effect and one row of
bitcasts compute. The refinement proofs are assembled from these.
-/

namespace WitBindgen

open Heap Code Generator

/-! ## Single instructions -/

section
variable {M : Machine} {canon : Ty → Bool} {ra : Option Realloc} {n : Nat}

/-- One instruction: its results are the values of the positions it defines. -/
theorem computes_inst {β : Type} {i : Instruction} {ops : List Nat} {blocks : List CBlock}
    {ctx : Ctx} {env vs : List RVal} {k : Nat} {spec : Exec Event β} {f : β → List RVal}
    (hn : env.length = n) (hops : lookup env ops = some vs)
    (h : Agree (fun rs b => rs.length = k ∧ rs = f b)
      (M.instSem i ctx (blocks.map (execBlock M.step · env)) vs) spec) :
    Computes M.step [Code.Stmt.mk (Op.inst i) ops blocks] ctx env (n + k) spec fun env' b =>
      lookup env' (List.range' n k) = some (f b) := by
  subst hn
  refine Computes.stmt hops (h.mono fun rs b hrs => ⟨hrs.1, ?_⟩)
  rw [← hrs.2, ← hrs.1]
  exact lookup_range' env rs

/-- One instruction that only has an effect. -/
theorem computes_effect {i : Instruction} {ops : List Nat} {blocks : List CBlock}
    {ctx : Ctx} {env vs : List RVal} {spec : Exec Event Unit}
    (hn : env.length = n) (hops : lookup env ops = some vs)
    (h : M.instSem i ctx (blocks.map (execBlock M.step · env)) vs = spec >>= fun _ => pure []) :
    Computes M.step [Code.Stmt.mk (Op.inst i) ops blocks] ctx env (n + 0) spec fun _ _ => True := by
  refine (computes_inst (f := fun _ => []) hn hops ?_).mono fun _ _ _ _ _ => trivial
  rw [h]
  have hb := (Agree.refl spec).bind (f := fun _ => (pure [] : Machine.Results)) (g := pure)
    (S := fun rs _ => rs.length = 0 ∧ rs = []) fun _ _ _ => Agree.pure ⟨rfl, rfl⟩
  rwa [bind_pure] at hb

/-- One instruction that puts a known value in scope. -/
theorem computes_value {i : Instruction} {ctx : Ctx} {env : List RVal} {r : RVal}
    (hn : env.length = n) (h : M.instSem i ctx [] [] = pure [r]) :
    Computes M.step [Code.Stmt.mk (Op.inst i) [] []] ctx env (n + 1) (pure ()) fun env' _ =>
      env'[n]? = some r := by
  refine (computes_inst (k := 1) (f := fun _ => [r]) hn (lookup_nil env) ?_).mono ?_
  · rw [List.map_nil, h]
    exact Agree.pure ⟨rfl, rfl⟩
  · intro env' _ _ _ hr
    simpa using getElem?_of_lookup hr

/-- A block that hands nothing back, run for its effect. -/
theorem runUnit_agree {code : List CStmt} {ctx : Ctx} {env : List RVal} {n' : Nat}
    {spec : Exec Event Unit} (h : Computes M.step code ctx env n' spec fun _ _ => True) :
    Agree Eq (Machine.runUnit (execBlock M.step (.mk code []) env) ctx) spec := by
  have hblock := execBlock_agree (f := fun _ => []) (h.mono fun env' _ _ _ _ => lookup_nil env')
  have hunit := hblock.bind (f := fun _ => (pure () : Exec Event Unit)) (g := pure) (S := Eq)
    fun _ _ _ => Agree.pure rfl
  rwa [bind_pure] at hunit

/-- How many results the blocks of a loop hand back. -/
theorem blockResults_of {ι : Type} {P : ι → CBlock → Prop} {xs : List ι} {blocks : List CBlock}
    {size : ι → Nat} (h : List.Forall₂ P xs blocks) (hP : ∀ i b, P i b → b.results.length = size i) :
    blocks.map (·.results.length) = xs.map size := by
  induction h with
  | nil => rfl
  | cons hb _ ih => rw [List.map_cons, List.map_cons, ih, hP _ _ hb]

/-- The block made for the item at a given place. -/
theorem block_at {ι : Type} {P : ι → CBlock → Prop} {xs : List ι} {blocks : List CBlock}
    (h : List.Forall₂ P xs blocks) {i : Nat} {x : ι} {b : CBlock} (hb : blocks[i]? = some b)
    (hx : xs[i]? = some x) : P x b := by
  induction h generalizing i with
  | nil => simp at hb
  | cons hxb _ ih =>
    cases i with
    | zero =>
      obtain rfl := Option.some.inj hb
      obtain rfl := Option.some.inj hx
      exact hxb
    | succ i => exact ih hb hx

/-- Results that are read off a value both sides need. -/
theorem agree_results {β : Type} {o : Option β} {k : Nat} {f : β → List RVal}
    (h : ∀ b, o = some b → (f b).length = k) :
    Agree (ε := Event) (fun rs b => rs.length = k ∧ rs = f b)
      (require o >>= fun b => pure (f b)) (require o) := by
  cases o with
  | none => exact Agree.stuck
  | some b => exact Agree.pure ⟨h b rfl, rfl⟩

theorem mapM_asWord (ws : List Word) : (ws.map RVal.word).mapM RVal.asWord = some ws := by
  induction ws with
  | nil => rfl
  | cons w ws ih => simp [ih]

theorem mapM_asVal (vs : List Val) : (vs.map RVal.val).mapM RVal.asVal = some vs := by
  induction vs with
  | nil => rfl
  | cons v vs ih => simp [ih]

theorem instSem_iterBasePointer {ctx : Ctx} {a : Nat} (h : ctx.base = some a) :
    M.instSem .iterBasePointer ctx [] [] = pure [.ptr a] := by
  show (require ctx.base >>= fun a => pure [RVal.ptr a]) = _
  rw [h]; rfl

/-! ## Layouts and arms -/

/-- The offset of a map entry's value. -/
theorem valueOffset_ok {T : Target} (hT : T.W.Lawful T.p) (k t : Ty) :
    ∃ offset, (T.W.fieldOffsets [k, t])[1]?.map (·.1) = some offset ∧
      T.valueOffset k t = offset.eval T.p := by
  have hlen := congrArg List.length (hT.fieldOffsets_types [k, t])
  rw [List.length_map] at hlen
  have hlt : 1 < (T.W.fieldOffsets [k, t]).length := by simp [hlen]
  refine ⟨(T.W.fieldOffsets [k, t])[1].1, ?_, ?_⟩
  · rw [List.getElem?_eq_getElem hlt]
    rfl
  · rw [Target.valueOffset, List.getElem?_eq_getElem hlt]
    rfl

/-- The types of the arms, whatever they are paired with. -/
theorem armTypes_map {α : Type} (g : Ty → α) (arms : List (Option Ty)) :
    ((arms.map fun o => o.map fun t => (t, g t)).map fun o => o.map (·.1)) = arms := by
  simp [Function.comp_def]

/-! ## Bitcasts -/

/-- Every case's core types can be cast into the slots. -/
theorem castAll_into {src dst : List WasmType}
    (h : List.Forall₂ WasmType.JoinsInto src (dst.take src.length)) :
    ∃ casts, castAll src dst = some casts ∧ casts.length = src.length := by
  induction src generalizing dst with
  | nil => exact ⟨[], by simp [castAll], rfl⟩
  | cons a src ih =>
    cases dst with
    | nil => cases h
    | cons b dst =>
      rw [List.length_cons, List.take_succ_cons] at h
      obtain ⟨hab, hrest⟩ := List.forall₂_cons.mp h
      obtain ⟨c, -, hc, -⟩ := hab.cast_some
      obtain ⟨casts, hcasts, hlen⟩ := ih hrest
      refine ⟨c :: casts, ?_, by simp [hlen]⟩
      unfold castAll at hcasts ⊢
      simp [hc, hcasts]

/-- And back. -/
theorem castAll_outOf {src dst : List WasmType}
    (h : List.Forall₂ WasmType.JoinsInto dst (src.take dst.length)) :
    ∃ casts, castAll (src.take dst.length) dst = some casts ∧ casts.length = dst.length := by
  induction dst generalizing src with
  | nil => exact ⟨[], by simp [castAll], rfl⟩
  | cons a dst ih =>
    cases src with
    | nil => cases h
    | cons b src =>
      rw [List.length_cons, List.take_succ_cons] at h
      obtain ⟨hab, hrest⟩ := List.forall₂_cons.mp h
      obtain ⟨-, c, -, hc⟩ := hab.cast_some
      obtain ⟨casts, hcasts, hlen⟩ := ih hrest
      refine ⟨c :: casts, ?_, by simp [hlen]⟩
      unfold castAll at hcasts ⊢
      simp [hc, hcasts]

/-- The bitcasts of two lists of core types do what `castWords` says. -/
theorem apply_castAll {p : Nat} (hp : p = 4 ∨ p = 8) {src dst : List WasmType}
    {casts : List Bitcast} (h : castAll src dst = some casts) (ws : List Word) :
    (casts.zip ws).mapM (fun x => x.1.apply p x.2) = castWords p src dst ws := by
  induction src generalizing dst casts ws with
  | nil =>
    obtain rfl : casts = [] := by simpa [castAll] using h.symm
    simp [castWords]
  | cons a src ih =>
    cases dst with
    | nil =>
      obtain rfl : casts = [] := by simpa [castAll] using h.symm
      simp [castWords]
    | cons b dst =>
      unfold castAll at h ih
      simp only [List.zip_cons_cons, List.mapM_cons, Option.bind_eq_bind,
        Option.bind_eq_some_iff, Option.pure_def, Option.some.injEq] at h
      obtain ⟨c, hc, cs, hcs, rfl⟩ := h
      cases ws with
      | nil => simp [castWords]
      | cons w ws =>
        have hrest := ih hcs ws
        unfold castWords at hrest ⊢
        simp only [List.zip_cons_cons, List.mapM_cons, apply_cast hp hc, hrest]

/-- Bitcasts that are all `None` leave the words as they are. -/
theorem apply_none {p : Nat} {casts : List Bitcast} (h : ∀ c ∈ casts, c = .none)
    {ws : List Word} (hlen : ws.length = casts.length) :
    (casts.zip ws).mapM (fun x => x.1.apply p x.2) = some ws := by
  induction casts generalizing ws with
  | nil =>
    obtain rfl : ws = [] := by simpa using hlen
    rfl
  | cons c casts ih =>
    obtain ⟨w, us, rfl⟩ := List.exists_cons_of_length_eq_add_one hlen
    obtain rfl := h c List.mem_cons_self
    have hrestLen : us.length = casts.length := by simpa using hlen
    have hrest := ih (fun c hc => h c (List.mem_cons_of_mem _ hc)) hrestLen
    simp [Bitcast.apply, hrest]

variable (canon ra) in
/-- The casts emitted between two lists of core types. -/
theorem emitCasts_ok (hp : M.p = 4 ∨ M.p = 8) {src dst : List WasmType} {casts : List Bitcast}
    (hcasts : castAll src dst = some casts) {ops : List Nat} (hlen : ops.length = casts.length)
    (n : Nat) : ∃ code outs n', outs.length = ops.length ∧
      Emits ra (emitCasts M.W src dst : RGen M.W canon Unit) ops n () outs code n' ∧
      ∀ ctx env ws, env.length = n → lookup env ops = some (ws.map .word) →
        Computes M.step code ctx env n' (require (castWords M.p src dst ws)) fun env' ws' =>
          lookup env' outs = some (ws'.map .word) := by
  rw [emitCasts, hcasts, orPanic, pure_bind]
  split
  · have hemits : Emits ra (emit M.W (.bitcasts casts) : RGen M.W canon Unit) ops n ()
        (List.range' n casts.length) [Code.Stmt.mk (Op.inst (.bitcasts casts)) ops []]
        (n + casts.length) := Emits.emit hlen rfl rfl
    refine ⟨_, _, _, by rw [List.length_range', hlen], hemits, ?_⟩
    intro ctx env ws hn hws
    refine computes_inst hn hws ?_
    have hsem : M.instSem (.bitcasts casts) ctx [] (ws.map .word) =
        (require ((ws.map RVal.word).mapM RVal.asWord) >>= fun ws =>
          require ((casts.zip ws).mapM fun x => x.1.apply M.p x.2) >>= fun ws' =>
            pure (ws'.map .word)) := rfl
    rw [List.map_nil, hsem, mapM_asWord, require_some, pure_bind, apply_castAll hp hcasts]
    refine agree_results fun ws' hws' => ?_
    rw [← apply_castAll hp hcasts] at hws'
    rw [List.length_map, mapM_length hws', List.length_zip, ← List.length_map (f := RVal.word),
      lookup_length hws, hlen, Nat.min_self]
  · next hnone =>
      refine ⟨[], ops, n, rfl, Emits.pure, ?_⟩
      intro ctx env ws hn hws
      have hall : ∀ c ∈ casts, c = .none := by simpa using hnone
      have hwlen : ws.length = casts.length := by
        rw [← hlen, ← lookup_length hws, List.length_map]
      rw [← apply_castAll hp hcasts, apply_none hall hwlen, require_some]
      subst hn
      exact Computes.nil hws

end

end WitBindgen
