import WitBindgen.Abi.Stack
import WitBindgen.CSharp.FunctionBindgen
import WitBindgen.Library.Outcome
import Mathlib.Data.List.Nodup

/-!
# The text of a C# export

The arguments are lifted first, and all that this part can do to a borrow of an imported
resource is to wrap it in a variable of `resource_drops`. Then comes the call, `Dispose` for
each of these variables, and the lowering of the result, which wraps nothing. Each argument
has one operand, whose form its type decides.
-/

namespace WitBindgen.CSharp.FunctionBindgen

open Trace Generator

/-- The arms of `emit` that print neither the call nor the end. -/
def quiet : Instruction → Bool
  | .callInterface _ _ | .return_ _ _ | .asyncTaskReturn _ _ => false
  | _ => true

/-- The handle is of an imported resource. -/
def Resources.imports (R : Resources) (h : Handle) : Prop :=
  R.all (R.dealias h.resource) = some .import_

/-- The variable of the handle of an imported resource. -/
def handleVar (c : Config) (next : Nat) : Local :=
  if c.kind.isConstructor then .this else .resource next

/-! ## Renderings -/

section
variable {c : Config} {i : Instruction} {ops : List Operand} {blocks : List Block}
  {scope : Option BlockStorage} {s : State} {r : Rendered} {p : Act → Prop}

theorem liftCase_inv {payload : Bool} {b : Block} {t : Text Act} (h : liftCase payload b = .ok t) :
    t = b.body := by
  unfold liftCase at h
  split at h <;> cases h
  rfl

theorem liftCases_inv {next : Nat} {payloads : List Bool}
    (h : liftCases next payloads blocks = .ok r) :
    ∃ cases, r = ⟨[.branch cases], [.var (.tmp next)], [], false, 1⟩ ∧
      ∀ t ∈ cases, ∃ b ∈ blocks, t = b.body := by
  unfold liftCases at h
  generalize hm : List.mapM (m := Except _) _ (payloads.zip blocks) = q at h
  cases q with
  | error e => cases h
  | ok cases' =>
    cases h
    refine ⟨cases', rfl, fun t ht => ?_⟩
    obtain ⟨⟨q, b⟩, hb, hcase⟩ := mapM_ok_mem hm ht
    exact ⟨b, (List.of_mem_zip hb).2, liftCase_inv hcase⟩

theorem liftOption_inv {next : Nat} {payload : Bool} (h : liftOption next payload blocks = .ok r) :
    ∃ b ∈ blocks, r = ⟨[.branch [[], b.body]], [.var (.tmp next)], [], false, 1⟩ := by
  unfold liftOption at h
  split at h
  · next b =>
      cases hc : liftCase payload b with
      | error e => rw [hc] at h; cases h
      | ok t =>
        rw [hc] at h
        cases h
        exact ⟨b, by simp, by rw [liftCase_inv hc]⟩
  · cases h

theorem loopBound_inv {next : Nat} (h : loopBound next blocks = .ok r) :
    ∃ b ∈ blocks, r = ⟨[.loop b.body], [.var (.tmp next)], [], false, 1⟩ := by
  unfold loopBound at h
  split at h <;> cases h
  exact ⟨_, List.mem_singleton_self _, rfl⟩

theorem lowerLoop_inv {cleanup : Bool} (h : lowerLoop cleanup blocks = .ok r) :
    ∃ b ∈ blocks, r = ⟨[.loop b.body], [.text, .text], [], cleanup, 0⟩ := by
  unfold lowerLoop at h
  split at h <;> cases h
  exact ⟨_, List.mem_singleton_self _, rfl⟩

theorem same_inv (h : same ops = .ok r) : ∃ op, ops = [op] ∧ r = ⟨[], [op], [], false, 0⟩ := by
  unfold same at h
  split at h <;> cases h
  exact ⟨_, rfl, rfl⟩

theorem unchecked_inv {word : Word} (h : unchecked word ops = .ok r) :
    ∃ op, ops = [op] ∧ r = ⟨[], [.unchecked word op], [], false, 0⟩ := by
  unfold unchecked at h
  split at h <;> cases h
  exact ⟨_, rfl, rfl⟩

/-- The arms that panic unless `q`. -/
theorem guarded_inv {q : Prop} [Decidable q] {x : Rendering} {e : WitBindgen.Panic}
    (h : (if q then x else .error e) = .ok r) : x = .ok r := by
  split at h
  · exact h
  · cases h

theorem handleLift_inv {h : Handle} {next : Nat} (hr : handleLift c h next = .ok r) :
    (c.resources.imports h ∧ r.results = [.var (handleVar c next)] ∧ r.locals = 1 ∧
      (h.isOwn ∧ r.code = [] ∧ r.drops = [] ∨ h.isOwn = false ∧
        r.code = [Stmt.act (Act.lift (handleVar c next))] ∧ r.drops = [handleVar c next])) ∨
    c.resources.all (c.resources.dealias h.resource) = some .export_ ∧
      r = ⟨[], [.var (.tmp next)], [], false, 1⟩ := by
  unfold handleLift at hr
  split at hr
  · next himport =>
      left
      cases hown : h.isOwn with
      | true => rw [hown] at hr; cases hr; exact ⟨himport, rfl, rfl, .inl ⟨rfl, rfl, rfl⟩⟩
      | false => rw [hown] at hr; cases hr; exact ⟨himport, rfl, rfl, .inr ⟨rfl, rfl, rfl⟩⟩
  · next hexport => cases hr; exact .inr ⟨hexport, rfl⟩
  · cases hr

/-- Only the lifting of a borrow of an imported resource puts anything on `resource_drops`. -/
theorem render_drops (hi : quiet i) (h : render c i ops blocks scope s = .ok r) : r.drops = [] ∨
    ∃ hd name id, i = .handleLift hd name id ∧ hd.isOwn = false ∧ c.resources.imports hd ∧
      r.drops = [handleVar c s.locals] ∧ r.locals = 1 := by
  cases i
  case handleLift hd name id =>
    rcases handleLift_inv h with ⟨himport, -, hlocals, ⟨-, -, hdrops⟩ | ⟨hown, -, hdrops⟩⟩ | ⟨-, rfl⟩
    · exact .inl hdrops
    · exact .inr ⟨hd, name, id, rfl, hown, himport, hdrops, hlocals⟩
    · exact .inl rfl
  all_goals left
  case variantLift | resultLift => obtain ⟨_, rfl, -⟩ := liftCases_inv h; rfl
  case optionLift => obtain ⟨_, -, rfl⟩ := liftOption_inv h; rfl
  case listLift | mapLift => obtain ⟨_, -, rfl⟩ := loopBound_inv h; rfl
  case listLower | mapLower => obtain ⟨_, -, rfl⟩ := lowerLoop_inv h; rfl
  case callInterface | return_ | asyncTaskReturn => cases hi
  case getArg | callWasm =>
    cases guarded_inv h
    rfl
  case flagsLift =>
    cases guarded_inv h
    rfl
  case iterElem | iterBasePointer | iterMapKey | iterMapValue =>
    cases scope <;> cases h
    rfl
  case i64FromU64 | i32FromU32 | u32FromI32 | u64FromI64 | charFromI32 =>
    obtain ⟨_, -, rfl⟩ := unchecked_inv h
    rfl
  case i64FromS64 | i32FromU16 | i32FromS16 | i32FromU8 | i32FromS8 | i32FromS32 | f32FromCoreF32 |
      coreF32FromF32 | coreF64FromF64 | f64FromCoreF64 | s32FromI32 | s64FromI64 =>
    obtain ⟨_, -, rfl⟩ := same_inv h
    rfl
  all_goals cases h
  all_goals rfl

/-- What is printed is what the blocks have, and the wrapping of borrows. -/
theorem render_all (hi : quiet i) (h : render c i ops blocks scope s = .ok r)
    (hblocks : ∀ b ∈ blocks, b.body.All p) (hdrops : ∀ x ∈ r.drops, p (Act.lift x)) : r.code.All p := by
  have hbodies : Text.All p [.branch (blocks.map Block.body)] := by
    refine Text.All.branch fun arm harm => ?_
    obtain ⟨b, hb, rfl⟩ := List.mem_map.mp harm
    exact hblocks b hb
  cases i
  case handleLift hd name id =>
    rcases handleLift_inv h with ⟨-, -, -, ⟨-, hcode, -⟩ | ⟨-, hcode, hd'⟩⟩ | ⟨-, rfl⟩
    · rw [hcode]; exact .nil
    · rw [hcode]; exact .single (hdrops _ (by rw [hd']; exact List.mem_singleton_self _))
    · exact .nil
  case variantLift | resultLift =>
    obtain ⟨arms, rfl, harms⟩ := liftCases_inv h
    refine .branch fun arm harm => ?_
    obtain ⟨b, hb, rfl⟩ := harms arm harm
    exact hblocks b hb
  case optionLift =>
    obtain ⟨b, hb, rfl⟩ := liftOption_inv h
    refine .branch fun arm harm => ?_
    rcases List.mem_cons.mp harm with rfl | harm
    · exact .nil
    · rw [List.mem_singleton.mp harm]; exact hblocks b hb
  case listLift | mapLift => obtain ⟨b, hb, rfl⟩ := loopBound_inv h; exact .loop (hblocks b hb)
  case listLower | mapLower => obtain ⟨b, hb, rfl⟩ := lowerLoop_inv h; exact .loop (hblocks b hb)
  case variantLower | optionLower | resultLower | guestDeallocateVariant => cases h; exact hbodies
  case guestDeallocateList | guestDeallocateMap =>
    cases h
    intro stmt hstmt
    obtain ⟨b, hb, rfl⟩ := List.mem_map.mp hstmt
    exact .loop (hblocks b hb)
  case callInterface | return_ | asyncTaskReturn => cases hi
  case getArg | callWasm =>
    cases guarded_inv h
    exact .nil
  case flagsLift =>
    cases guarded_inv h
    exact .nil
  case iterElem | iterBasePointer | iterMapKey | iterMapValue =>
    cases scope <;> cases h
    exact .nil
  case i64FromU64 | i32FromU32 | u32FromI32 | u64FromI64 | charFromI32 =>
    obtain ⟨_, -, rfl⟩ := unchecked_inv h
    exact .nil
  case i64FromS64 | i32FromU16 | i32FromS16 | i32FromU8 | i32FromS8 | i32FromS32 | f32FromCoreF32 |
      coreF32FromF32 | coreF64FromF64 | f64FromCoreF64 | s32FromI32 | s64FromI64 =>
    obtain ⟨_, -, rfl⟩ := same_inv h
    exact .nil
  all_goals cases h
  all_goals exact .nil

end

/-! ## The state -/

/-- What a step of the generator did. -/
theorem emit_state {c : Config} {i : Instruction} {ops rs : List Operand} {s s' : State}
    (h : (functionBindgen c).emit i ops s = .ok (rs, s')) :
    ∃ r, i.blockResults.length ≤ s.blocks.length ∧
      render c i ops (s.blocks.drop (s.blocks.length - i.blockResults.length))
        s.blockStorage.getLast? s = .ok r ∧ rs = r.results ∧
      s' = { s with
        src := s.src ++ r.code
        blocks := s.blocks.take (s.blocks.length - i.blockResults.length)
        resourceDrops := s.resourceDrops ++ r.drops
        needsCleanup := s.needsCleanup || r.cleanup
        locals := s.locals + r.locals } := by
  change (if _ then _ else _) = _ at h
  split at h
  · next hle =>
      cases hr : render c i ops (s.blocks.drop (s.blocks.length - i.blockResults.length))
          s.blockStorage.getLast? s with
      | error e => rw [hr] at h; cases h
      | ok r => rw [hr] at h; cases h; exact ⟨r, hle, rfl, rfl, rfl⟩
  · cases h

/-- The texts that are being written, the outermost first. -/
def State.texts (s : State) : List (Text Act) := s.blockStorage.map (·.body) ++ [s.src]

/-- A borrow is wrapped, in a variable of `resource_drops`, where that may happen. -/
def Wraps (allowed : Prop) (drops : List Local) (a : Act) : Prop :=
  allowed ∧ ∃ x ∈ drops, a = .lift x

theorem Wraps.mono {allowed : Prop} {drops more : List Local} {a : Act} (h : Wraps allowed drops a) :
    Wraps allowed (drops ++ more) a := by
  obtain ⟨ha, x, hx, rfl⟩ := h
  exact ⟨ha, x, List.mem_append_left _ hx, rfl⟩

/-- What the generator has added since `s₀`, with blocks open as `l` counts them, if it
started at the outermost level. -/
structure Extends (allowed : Prop) (s₀ : State) (l : List Nat) (s : State) : Prop where
  text : ∃ t ts, ts.length + 1 = l.length ∧ s.texts = (s₀.src ++ t) :: ts ∧
    ∀ u ∈ t :: ts, u.All (Wraps allowed s.resourceDrops)
  blocks : ∀ b ∈ s.blocks, b.body.All (Wraps allowed s.resourceDrops)
  pending : s.blocks.length = l.sum
  drops : ∃ added, s.resourceDrops = s₀.resourceDrops ++ added ∧ (allowed ∨ added = [])

/-- The instructions that may be fed in between. -/
def Admitted (allowed : Prop) (i : Instruction) : Prop :=
  quiet i ∧ (allowed ∨ ∀ h name id, i ≠ .handleLift h name id)

theorem Extends.refl {allowed : Prop} {s : State} (hstorage : s.blockStorage = [])
    (hblocks : s.blocks = []) : Extends allowed s [0] s where
  text := ⟨[], [], rfl, by rw [State.texts, hstorage, List.append_nil]; rfl,
    List.forall_mem_singleton.mpr .nil⟩
  blocks := by rw [hblocks]; nofun
  pending := congrArg List.length hblocks
  drops := ⟨[], (List.append_nil _).symm, .inr rfl⟩

/-- Back at the outermost level, text and variables were added. -/
theorem Extends.added {allowed : Prop} {s₀ s : State} (h : Extends allowed s₀ [0] s) :
    s.blockStorage = [] ∧ s.blocks = [] ∧
      ∃ t, s.src = s₀.src ++ t ∧ t.All (Wraps allowed s.resourceDrops) := by
  obtain ⟨t, ts, hlen, htext, hall⟩ := h.text
  obtain rfl : ts = [] := List.eq_nil_of_length_eq_zero (Nat.succ.inj hlen)
  have htext' : s.blockStorage.map BlockStorage.body ++ [s.src] = [] ++ [s₀.src ++ t] := htext
  obtain ⟨hstorage, hsrc⟩ := List.append_inj' htext' rfl
  exact ⟨List.map_eq_nil_iff.mp hstorage, List.eq_nil_of_length_eq_zero h.pending, t, List.cons.inj hsrc |>.1, hall t List.mem_cons_self⟩

theorem functionBindgen_extends (c : Config) (allowed : Prop) (s₀ : State) :
    Stable (functionBindgen c) (Admitted allowed) (Extends allowed s₀) (fun _ => True) where
  emit {i ops s rs s' n l} hi _ hemit hs := by
    obtain ⟨hquiet, hadmitted⟩ := hi
    obtain ⟨r, hle, hr, rfl, rfl⟩ := emit_state hemit
    refine ⟨?_, fun _ _ => trivial⟩
    have hnone : allowed ∨ r.drops = [] := by
      rcases hadmitted with ha | hne
      · exact .inl ha
      · rcases render_drops hquiet hr with hd | ⟨hd, name, id, rfl, -⟩
        · exact .inr hd
        · exact absurd rfl (hne hd name id)
    have hcode : r.code.All (Wraps allowed (s.resourceDrops ++ r.drops)) := by
      refine render_all hquiet hr (fun b hb => (hs.blocks b (List.mem_of_mem_drop hb)).mono
        fun _ => Wraps.mono) fun x hx => ?_
      rcases hnone with ha | hd
      · exact ⟨ha, x, List.mem_append_right _ hx, rfl⟩
      · rw [hd] at hx; cases hx
    obtain ⟨t, ts, hlen, htext, hall⟩ := hs.text
    have hopen : s.texts = [] ++ (s₀.src ++ t) :: ts := htext
    obtain ⟨t', ts', hlen', htext', hmem⟩ := extend_last (u := r.code) hopen
    refine ⟨⟨t', ts', by rw [hlen', hlen]; rfl, htext', fun v hv => ?_⟩, fun b hb =>
      (hs.blocks b (List.mem_of_mem_take hb)).mono fun _ => Wraps.mono, ?_, ?_⟩
    · rcases hmem v hv with hv | ⟨w, hw, rfl⟩
      · exact (hall v hv).mono fun _ => Wraps.mono
      · exact ((hall w hw).mono fun _ => Wraps.mono).append hcode
    · have hcount := hs.pending
      rw [List.sum_cons] at hcount
      show (s.blocks.take _).length = _
      rw [List.length_take, List.sum_cons]
      omega
    · obtain ⟨added, hdrops, hadded⟩ := hs.drops
      refine ⟨added ++ r.drops, by rw [← List.append_assoc, ← hdrops], ?_⟩
      rcases hnone with ha | hd
      · exact .inl ha
      · exact hadded.imp id fun h => by rw [h, hd]; rfl
  returnPointer hret hs := by
    cases hret
    exact ⟨⟨hs.text, hs.blocks, hs.pending, hs.drops⟩, trivial⟩
  pushBlock {s s' n l} hpush hs := by
    cases hpush
    obtain ⟨t, ts, hlen, htext, hall⟩ := hs.text
    refine ⟨⟨t, ts ++ [[]], by simp [← hlen], ?_, fun u hu => ?_⟩, hs.blocks, by rw [hs.pending]; simp,
      hs.drops⟩
    · show (s.blockStorage ++ [(⟨s.src, s.locals⟩ : BlockStorage)]).map BlockStorage.body ++ [[]] = _
      rw [List.map_append, ← List.cons_append, ← htext]
      rfl
    · rcases List.mem_append.mp (List.cons_append ▸ hu : u ∈ (t :: ts) ++ [[]]) with hu | hu
      · exact hall u hu
      · rw [List.mem_singleton.mp hu]
        exact .nil
  finishBlock {ops s s' n l} _ hfinish hs := by
    obtain ⟨t, ts, hlen, htext, hall⟩ := hs.text
    rcases List.eq_nil_or_concat ts with rfl | ⟨ts', v, rfl⟩
    · cases hlen
    · rw [List.concat_eq_append, ← List.cons_append] at htext
      obtain ⟨hstorage, hsrc⟩ := List.append_inj' htext rfl
      obtain ⟨rfl, -⟩ := List.cons.inj hsrc
      dsimp only [functionBindgen] at hfinish
      cases hlast : s.blockStorage.getLast? with
      | none => rw [hlast] at hfinish; cases hfinish
      | some storage =>
        rw [hlast] at hfinish
        cases hfinish
        refine ⟨⟨t, ts', by simpa using hlen, ?_, fun u hu => hall u ?_⟩, ?_, ?_, hs.drops⟩
        · show s.blockStorage.dropLast.map BlockStorage.body ++ [storage.body] = _
          rw [← hstorage, ← List.dropLast_append_getLast? _ hlast, List.map_append,
            List.dropLast_concat]
          rfl
        · rw [List.concat_eq_append, ← List.cons_append]
          exact List.mem_append_left _ hu
        · refine List.forall_mem_append.mpr ⟨hs.blocks, List.forall_mem_singleton.mpr ?_⟩
          exact hall _ (by rw [List.concat_eq_append]; simp)
        · have hcount := hs.pending
          simp only [List.sum_cons] at hcount
          show (s.blocks ++ [_]).length = _
          rw [List.length_append, List.sum_cons]
          simp only [List.length_singleton]
          omega

/-! ### Names -/

/-- The variables of `resource_drops` are what `locals.tmp` made, each once. -/
structure Numbered (c : Config) (l : List Nat) (s : State) : Prop where
  named : ∀ x ∈ s.resourceDrops, ∃ n < s.locals, x = handleVar c n
  nodup : c.kind.isConstructor = false → s.resourceDrops.Nodup

theorem functionBindgen_numbered (c : Config) :
    Stable (functionBindgen c) (fun i => quiet i) (Numbered c) (fun _ => True) where
  emit {i ops s rs s' n l} hi _ hemit hs := by
    obtain ⟨r, -, hr, rfl, rfl⟩ := emit_state hemit
    refine ⟨?_, fun _ _ => trivial⟩
    have hold : ∀ x ∈ s.resourceDrops, ∃ n < s.locals + r.locals, x = handleVar c n := fun x hx =>
      (hs.named x hx).imp fun n hn => ⟨Nat.lt_add_right _ hn.1, hn.2⟩
    rcases render_drops hi hr with hd | ⟨hd, name, id, -, -, -, hdrops, hlocals⟩
    · exact ⟨by rw [hd, List.append_nil]; exact hold, by rw [hd, List.append_nil]; exact hs.nodup⟩
    · refine ⟨List.forall_mem_append.mpr ⟨hold, ?_⟩, fun hc => ?_⟩
      · rw [hdrops]
        exact List.forall_mem_singleton.mpr ⟨s.locals, by rw [hlocals]; exact Nat.lt_succ_self _, rfl⟩
      · rw [hdrops, List.nodup_append]
        refine ⟨hs.nodup hc, List.nodup_singleton _, fun x hx y hy => ?_⟩
        obtain ⟨n, hn, rfl⟩ := hs.named x hx
        rw [List.mem_singleton.mp hy, handleVar, handleVar, hc]
        intro heq
        cases heq
        exact Nat.lt_irrefl _ hn
  returnPointer {size align s x s' l} hret hs := by
    cases hret
    exact ⟨⟨fun x hx => (hs.named x hx).imp fun n hn => ⟨Nat.lt_succ_of_lt hn.1, hn.2⟩, hs.nodup⟩,
      trivial⟩
  pushBlock {s s' n l} hpush hs := by
    cases hpush
    exact ⟨fun x hx => (hs.named x hx).imp fun n hn => ⟨Nat.lt_add_right 4 hn.1, hn.2⟩, hs.nodup⟩
  finishBlock {ops s s' n l} _ hfinish hs := by
    dsimp only [functionBindgen] at hfinish
    split at hfinish <;> cases hfinish
    exact ⟨hs.named, hs.nodup⟩

/-! ## The phases of an export -/

theorem quiet_of_lowering {i : Instruction} (h : i.lowering) : quiet i := by
  cases i <;> first | rfl | cases h

theorem quiet_of_lifting {i : Instruction} (h : i.lifting) : quiet i := by
  cases i <;> first | rfl | cases h

theorem admitted_of_lowering {i : Instruction} (h : i.lowering) : Admitted False i :=
  ⟨quiet_of_lowering h, .inr fun hd name id heq => by rw [heq] at h; cases h⟩

/-- What is left to do when the result is lowered. -/
def ending (isAsync : Bool) (results : List Operand) (cleanup : Bool) : List Act :=
  if isAsync then [Act.taskReturn results] ++ if cleanup then [Act.cleanup] else []
  else (if cleanup then [Act.cleanup] else []) ++ [Act.return_]

/-- The call, with what is printed before and after it. -/
def callText (c : Config) (func : Function) (ops : List Operand) (drops : List Local) : Text Act :=
  let args := callArgs c.kind ops
  (if c.kind.isAsync then [Stmt.act (Act.enter args ops)] else []) ++
    [Stmt.act (Act.call args (around c func c.kind.isAsync))] ++ Text.acts (drops.map .dispose)

/-- The variable that the call's value is put in, where it has one. -/
def callValue (c : Config) (func : Function) (next : Nat) : List Operand :=
  if func.result.isSome || c.kind.isConstructor then [.var (.tmp next)] else []

/-- The operands `rs` are what the lowering of the function's result makes of `value`. -/
def LoweredTo (W : WitParser) (c : Config) (func : Function) (value rs : List Operand) : Prop :=
  ∃ toMemory s s', s.stack = value ∧ s'.stack = rs ∧ (lowerResults W func .guestExport
    (W.wasmSignature .guestExport func) toMemory : Gen (functionBindgen c) Unit) s = .ok ((), s')

section
variable {W : WitParser} {R : Resources} {wit : Bool} {func : Function} {c : Config}
  {s s' : GenState (functionBindgen c)}

/-- Arguments and result do nothing to blocks or texts but add to them. -/
theorem exportArgs_extends (allowed : Prop) (ha : allowed) {sig : WasmSignature} {s₀ : State} :
    Steady (Extends allowed s₀) (fun _ => True)
      (exportArgs W func sig : Gen (functionBindgen c) Unit) := by
  have hI := functionBindgen_extends c allowed s₀
  have hlift : ∀ t : Ty, ∀ i : Instruction, i.lifting → (t.Valid → i.armed) → Admitted allowed i :=
    fun _ i hi _ => ⟨quiet_of_lifting hi, .inl ha⟩
  refine Keeps.ite ((Keeps.emit hI ⟨rfl, .inl ha⟩ rfl).and_then fun _ =>
    Keeps.readParamsFromMemory hI fun i hi _ => ⟨quiet_of_lifting hi, .inl ha⟩) ?_
  exact Keeps.liftArgs hI (fun _ => ⟨rfl, .inl ha⟩) (fun t _ => (Keeps.lift_and_read hI t (hlift t)).1) _ _

theorem exportArgs_numbered {sig : WasmSignature} : Steady (Numbered c) (fun _ => True)
      (exportArgs W func sig : Gen (functionBindgen c) Unit) := by
  have hI := functionBindgen_numbered c
  refine Keeps.ite ((Keeps.emit hI rfl rfl).and_then fun _ =>
    Keeps.readParamsFromMemory hI fun i hi _ => quiet_of_lifting hi) ?_
  exact Keeps.liftArgs hI (fun _ => rfl)
    (fun t _ => (Keeps.lift_and_read hI t fun i hi _ => quiet_of_lifting hi).1) _ _

theorem callInterface_inv {ops : List Operand} {next : Nat} {drops : List Local} {r : Rendered}
    (hc : c.direction = .export_) (h : callInterface c func ops next drops = .ok r) :
    (c.kind.isAsync → knowsHandles c func) ∧ r.code = callText c func ops drops ∧ r.drops = [] ∧
      r.results = callValue c func next := by
  have hdir : (c.direction == .export_) = true := by rw [hc]; rfl
  unfold callInterface at h
  rw [hdir, Bool.and_true] at h
  dsimp only at h
  split at h
  · cases h
  · next hnot =>
      cases h
      refine ⟨fun hasync => ?_, rfl, rfl, rfl⟩
      rw [hasync, Bool.true_and, Bool.not_eq_true, Bool.not_eq_false'] at hnot
      exact hnot

theorem returnResults_text {sig : WasmSignature} {flatResults : Option (Option (List WasmType))}
    (hc : c.direction = .export_) {isAsync : Bool} (hflat : flatResults.isSome = isAsync)
    (h : (returnResults W func .guestExport sig flatResults isAsync :
      Gen (functionBindgen c) Unit) s = .ok ((), s')) :
    ∃ results cleanup, s'.bindgen.src = s.bindgen.src ++ Text.acts (ending isAsync results cleanup) ∧
      s'.bindgen.resourceDrops = s.bindgen.resourceDrops ∧
      (isAsync → s.stack = s'.stack ++ results) := by
  obtain ⟨i, heq, hi⟩ := @returnResults_eq W (functionBindgen c) func _ sig _ (.inl rfl) _ hflat
  rw [heq] at h
  obtain ⟨below, ops, rs, hstack, -, hemit, -, hs⟩ := emit_inv h
  obtain ⟨r, -, hr, rfl, hs'⟩ := emit_state hemit
  have hrest : s'.stack = below ++ r.results := congrArg GenState.stack hs
  rw [hs', hrest, hstack]
  rcases hi with ⟨rfl, name, tys, rfl⟩ | ⟨rfl, rfl⟩
  · cases (if_pos hc).symm.trans hr
    refine ⟨ops, s.bindgen.needsCleanup, ?_, List.append_nil _, fun _ => by
      rw [List.append_nil]⟩
    cases s.bindgen.needsCleanup <;> rfl
  · cases hr
    refine ⟨[], s.bindgen.needsCleanup, ?_, List.append_nil _, nofun⟩
    cases s.bindgen.needsCleanup <;> rfl

end

/-! ## The text -/

/-- The text of an export: the lifting, the call, the lowering, the end. -/
structure ExportText (W : WitParser) (c : Config) (func : Function) (g : Generated) where
  lift : Text Act
  ops : List Operand
  lower : Text Act
  results : List Operand
  cleanup : Bool
  /-- The state in which the arguments have been lifted. -/
  lifted : State
  src : g.src = lift ++ callText c func ops g.vars ++ lower ++
    Text.acts (ending c.kind.isAsync results cleanup)
  lift_all : lift.All (Wraps True g.vars)
  lower_all : lower.All fun _ => False
  vars : lifted.resourceDrops = g.vars
  numbered : Numbered c [0] lifted
  knows : c.kind.isAsync → knowsHandles c func
  lowered : c.kind.isAsync → LoweredTo W c func (callValue c func lifted.locals) results
  args : (W.wasmSignature .guestExport func).indirectParams = false ∧
      Each (B := functionBindgen c) (argGens W func.paramTypes 0) State.new ops lifted ∨
    (W.wasmSignature .guestExport func).indirectParams = true ∧ ∃ ptr b,
      (functionBindgen c).emit (.getArg 0) [] State.new = .ok ([ptr], b) ∧
      Each (B := functionBindgen c) (readGens W ptr func.paramTypes default) b ops lifted

theorem argGens_length {W : WitParser} {B : Bindgen} (params : List Ty) (offset : Nat) :
    (argGens W params offset : List (Gen B Unit)).length = params.length := by
  induction params generalizing offset with
  | nil => rfl
  | cons t params ih => exact congrArg (· + 1) (ih _)

theorem readGens_length {W : WitParser} {B : Bindgen} (ptr : B.Operand) (params : List Ty)
    (offset : ArchitectureSize) :
    (readGens W ptr params offset : List (Gen B Unit)).length = params.length := by
  induction params generalizing offset with
  | nil => rfl
  | cons t params ih => exact congrArg (· + 1) (ih _)

theorem export_text {W : WitParser} {p : Nat} (hW : W.Lawful p) {R : Resources} {wit : Bool}
    {func : Function} {g : Generated} (h : export_ W R wit func = .ok g) :
    Nonempty (ExportText W (config W R wit func) func g) := by
  set c := config W R wit func with hc
  have hdir : c.direction = .export_ := rfl
  obtain ⟨s', hcall, rfl⟩ : ∃ s' : GenState (functionBindgen c),
      call W (B := functionBindgen c) .guestExport .liftArgsLowerResults func func.kind.isAsync
        State.new = .ok ((), s') ∧ g = ⟨s'.bindgen.src, s'.bindgen.resourceDrops⟩ := by
    unfold export_ at h
    cases hcall : call W (B := functionBindgen (config W R wit func)) .guestExport
        .liftArgsLowerResults func func.kind.isAsync State.new with
    | error e => rw [hcall] at h; cases h
    | ok r => rw [hcall] at h; cases h; exact ⟨r.2, rfl, rfl⟩
  obtain ⟨flatResults, toMemory, hflat, -, heq⟩ := @callLiftArgs_eq W (functionBindgen c) func _
    (W.wasmSignature .guestExport func) _ (.inl rfl)
    (callRealloc .guestExport .liftArgsLowerResults func.kind.isAsync)
  have hempty := call_export_stack hcall
  have hcall := call_export_inv hcall
  rw [heq] at hcall
  obtain ⟨_, s₁, hargs, hcall⟩ := bind_inv hcall
  obtain ⟨_, s₂, huser, hcall⟩ := bind_inv hcall
  obtain ⟨_, s₃, hresults, hcall⟩ := bind_inv hcall
  obtain ⟨_, s₄, hreturn, hrealloc⟩ := bind_inv hcall
  cases hrealloc
  -- the arguments
  have hstart : Extends True State.new [0] State.new := .refl rfl rfl
  obtain ⟨hext₁, -⟩ := exportArgs_extends True trivial _ _ _ 0 [] hargs hstart nofun
  obtain ⟨hnum₁, -⟩ := exportArgs_numbered (c := c) _ _ _ 0 [] hargs ⟨nofun, fun _ => .nil⟩ nofun
  obtain ⟨hstorage₁, hblocks₁, lift, hsrc₁, hlift⟩ := hext₁.added
  have heach := exportArgs_each hW rfl hargs
  have hlen : s₁.stack.length = func.params.length := by
    rcases heach with ⟨-, heach⟩ | ⟨-, ptr, b, -, heach⟩
    · rw [heach.length_eq, argGens_length, Function.paramTypes, List.length_map]
    · rw [heach.length_eq, readGens_length, Function.paramTypes, List.length_map]
  -- the call
  obtain ⟨below, ops, rs, hstack, hops, hemit, -, hstack₂⟩ := emit_inv huser
  obtain ⟨rfl, rfl⟩ : below = [] ∧ ops = s₁.stack := by
    have hlen' := congrArg List.length hstack
    rw [List.length_append, hlen, hops] at hlen'
    obtain rfl : below = [] := List.eq_nil_of_length_eq_zero (by
      change func.params.length = _ + func.params.length at hlen'
      omega)
    exact ⟨rfl, hstack.symm⟩
  obtain ⟨r, -, hr, rfl, hs₂⟩ := emit_state hemit
  obtain ⟨hknows, hcode, hdrops, hvalue⟩ := callInterface_inv hdir hr
  have hstack₂ : s₂.stack = callValue c func s₁.bindgen.locals :=
    (congrArg GenState.stack hstack₂).trans hvalue
  have hsrc₂ : s₂.bindgen.src = s₁.bindgen.src ++
      callText c func s₁.stack s₁.bindgen.resourceDrops := by rw [hs₂, ← hcode]
  have hdrops₂ : s₂.bindgen.resourceDrops = s₁.bindgen.resourceDrops := by
    rw [hs₂]
    show s₁.bindgen.resourceDrops ++ r.drops = _
    rw [hdrops, List.append_nil]
  -- the result
  have hI := functionBindgen_extends c False s₂.bindgen
  obtain ⟨hext₃, -⟩ := @Keeps.exportResults W _ _ _ _ func (W.wasmSignature .guestExport func) hI
    (fun _ => ⟨rfl, .inr nofun⟩) _ (.inl rfl)
    (callRealloc .guestExport .liftArgsLowerResults func.kind.isAsync) func.kind.isAsync toMemory
    (fun _ _ => ⟨rfl, .inr nofun⟩)
    (fun t _ => Keeps.lower_and_write hI t fun i hi _ => admitted_of_lowering hi)
    _ _ _ 0 [] hresults (.refl (by rw [hs₂]; exact hstorage₁) (by rw [hs₂]; simp [hblocks₁])) fun _ _ => trivial
  obtain ⟨-, -, lower, hsrc₃, hlower⟩ := hext₃.added
  have hdrops₃ : s₃.bindgen.resourceDrops = s₂.bindgen.resourceDrops := by
    obtain ⟨added, hadded, hno⟩ := hext₃.drops
    rw [hadded, hno.resolve_left id, List.append_nil]
  obtain ⟨results, cleanup, hsrc₄, hdrops₄, hstack₃⟩ := returnResults_text hdir hflat hreturn
  have hlowered : c.kind.isAsync →
      LoweredTo W c func (callValue c func s₁.bindgen.locals) results := by
    intro hasync
    have hasync : func.kind.isAsync = true := hasync
    rw [hasync] at hresults
    obtain ⟨_, s₅, hfree, hresults⟩ := bind_inv hresults
    rw [freeParams, Bool.not_true, Bool.and_false, Bool.and_false] at hfree
    cases hfree
    obtain ⟨_, s₆, hset, hresults⟩ := bind_inv hresults
    cases hset
    refine ⟨toMemory, _, s₃, ?_, ?_, hresults⟩
    · exact hstack₂
    · rw [hstack₃ hasync, show s₄.stack = [] from hempty, List.nil_append]
  have hvars : s₁.bindgen.resourceDrops = s₄.bindgen.resourceDrops := by
    rw [hdrops₄, hdrops₃, hdrops₂]
  refine ⟨⟨lift, s₁.stack, lower, results, cleanup, s₁.bindgen, ?_, hvars ▸ hlift,
    hlower.mono fun _ h => h.1, hvars, hnum₁, hknows, hlowered, heach⟩⟩
  show s₄.bindgen.src = _
  rw [hsrc₄, hsrc₃, hsrc₂, hsrc₁, hvars]
  rfl

theorem export_of_call {W : WitParser} {R : Resources} {wit : Bool} {func : Function} {c : Config}
    (hc : config W R wit func = c) {s : GenState (functionBindgen c)}
    (h : call W (B := functionBindgen c) .guestExport .liftArgsLowerResults func func.kind.isAsync
      State.new = .ok ((), s)) :
    export_ W R wit func = .ok ⟨s.bindgen.src, s.bindgen.resourceDrops⟩ := by
  subst hc
  unfold export_
  rw [h]
  rfl

/-- An emitter that puts an argument of the type on the stack. -/
inductive ArgOf (W : WitParser) (c : Config) : Ty → Gen (functionBindgen c) Unit → Prop where
  | core {ty offset} : ArgOf W c ty (liftArg W ty offset)
  | memory {ty ptr offset} : ArgOf W c ty (readFromMemory W ty ptr offset)

theorem argOf_argGens {W : WitParser} {c : Config} (params : List Ty) (offset : Nat) :
    List.Forall₂ (ArgOf W c) params (argGens W params offset) := by
  induction params generalizing offset with
  | nil => exact .nil
  | cons t params ih => exact .cons .core (ih _)

theorem argOf_readGens {W : WitParser} {c : Config} (ptr : Operand) (params : List Ty)
    (offset : ArchitectureSize) : List.Forall₂ (ArgOf W c) params (readGens W ptr params offset) := by
  induction params generalizing offset with
  | nil => exact .nil
  | cons t params ih => exact .cons .memory (ih _)

/-- Each argument is put on the stack by an emitter of its type. -/
theorem ExportText.each {W : WitParser} {c : Config} {func : Function} {g : Generated}
    (e : ExportText W c func g) : ∃ b gens, b.resourceDrops = [] ∧
      Each (B := functionBindgen c) gens b e.ops e.lifted ∧
      List.Forall₂ (ArgOf W c) func.paramTypes gens := by
  rcases e.args with ⟨-, heach⟩ | ⟨-, ptr, b, hptr, heach⟩
  · exact ⟨_, _, rfl, heach, argOf_argGens _ _⟩
  · obtain ⟨r, -, hr, -, rfl⟩ := emit_state hptr
    refine ⟨_, _, ?_, heach, argOf_readGens _ _ _⟩
    cases guarded_inv hr
    rfl

/-! ## The operands of arguments -/

/-- The types whose values are put in a new variable. -/
def binds : Ty → Bool
  | .string | .list _ _ | .map _ _ _ | .variant _ _ _ | .option _ _ | .result _ _ _
  | .handle _ _ _ | .future _ _ | .stream _ _ => true
  | _ => false

/-- The operand of a lifted value of the type, with aliases followed, given the operands of its
core values and the number of the next variable. -/
def operandOf (c : Config) (ops : List Operand) (next : Nat) : Ty → Operand
  | .prim .u32 | .prim .char => .unchecked .uint (ops.headD .text)
  | .prim .u64 => .unchecked .ulong (ops.headD .text)
  | .prim .s32 | .prim .s64 | .prim .f32 | .prim .f64 => ops.headD .text
  | .handle _ h _ =>
    if c.resources.all (c.resources.dealias h.resource) = some .import_ then
      .var (handleVar c next)
    else .var (.tmp next)
  | ty => if binds ty then .var (.tmp next) else .text

section
variable {W : WitParser} {c : Config} {ty : Ty} {i : Instruction}

theorem render_operand {ops : List Operand} {blocks : List Block} {scope : Option BlockStorage}
    {s : State} {r : Rendered} (hi : LiftsWith ty i) (h : render c i ops blocks scope s = .ok r) :
    r.results = [operandOf c ops s.locals (dealias ty)] ∧ (binds (dealias ty) → r.locals = 1) := by
  induction hi with
  | @prim q =>
    cases q
    case bool | s8 | u8 | s16 | u16 => cases h; exact ⟨rfl, nofun⟩
    case u32 | u64 | char =>
      obtain ⟨_, rfl, rfl⟩ := unchecked_inv h
      exact ⟨rfl, nofun⟩
    case s32 | s64 | f32 | f64 =>
      obtain ⟨_, rfl, rfl⟩ := same_inv h
      exact ⟨rfl, nofun⟩
  | string | listCanon | future | stream => cases h; exact ⟨rfl, fun _ => rfl⟩
  | type _ ih => exact ih h
  | list | map => obtain ⟨_, -, rfl⟩ := loopBound_inv h; exact ⟨rfl, fun _ => rfl⟩
  | record | tuple | enum => cases h; exact ⟨rfl, nofun⟩
  | flags =>
    cases guarded_inv h
    exact ⟨rfl, nofun⟩
  | variant | result => obtain ⟨_, rfl, -⟩ := liftCases_inv h; exact ⟨rfl, fun _ => rfl⟩
  | option => obtain ⟨_, -, rfl⟩ := liftOption_inv h; exact ⟨rfl, fun _ => rfl⟩
  | handle =>
    rcases handleLift_inv h with ⟨himport, hresults, hlocals, -⟩ | ⟨hexport, rfl⟩
    · refine ⟨hresults.trans (congrArg ([·]) (Eq.symm ?_)), fun _ => hlocals⟩
      exact if_pos (show c.resources.all _ = _ from himport)
    · refine ⟨congrArg ([·]) (Eq.symm ?_), fun _ => rfl⟩
      exact if_neg (by rw [hexport]; nofun)
  | errorContext | fixedLengthList | fixedLengthListFromMemory => cases h

/-- Only the operands of scalars depend on those of the core values. -/
theorem operandOf_congr (hi : LiftsWith ty i) (hprim : i.liftsPrim = false) (ops ops' : List Operand)
    (n : Nat) : operandOf c ops n (dealias ty) = operandOf c ops' n (dealias ty) := by
  induction hi with
  | @prim q => cases q <;> cases hprim
  | type _ ih => exact ih hprim
  | _ => rfl

theorem getArgs_stack {offset n : Nat} {s s' : GenState (functionBindgen c)}
    (h : getArgs W offset n s = .ok ((), s')) :
    s'.stack = s.stack ++ (List.range' offset n).map fun nth => Operand.var (.param nth) := by
  unfold getArgs at h
  generalize List.range' offset n = args at h
  induction args generalizing s with
  | nil => cases h; exact (List.append_nil _).symm
  | cons nth args ih =>
    obtain ⟨_, s₁, h₁, h₂⟩ := bind_inv h
    obtain ⟨below, ops, rs, hstack, hops, hemit, -, hs₁⟩ := emit_inv h₁
    obtain rfl : ops = [] := List.eq_nil_of_length_eq_zero hops
    obtain ⟨r, -, hr, rfl, -⟩ := emit_state hemit
    cases guarded_inv hr
    rw [ih h₂, hs₁, hstack, List.append_nil, List.append_assoc]
    rfl

/-- The last instruction of a lifting decides the operand. -/
theorem last_operand {s₁ s' : GenState (functionBindgen c)} (hi : LiftsWith ty i)
    (hemit : emit W i s₁ = .ok ((), s')) {o : Operand} (hs' : s'.stack = [o]) :
    ∃ ops below, s₁.stack = below ++ ops ∧ ops.length = i.operandsLen W ∧
      o = operandOf c ops s₁.bindgen.locals (dealias ty) ∧
      (binds (dealias ty) → s₁.bindgen.locals < s'.bindgen.locals) := by
  obtain ⟨below, ops, rs, hstack, hops, hemit, -, heq⟩ := emit_inv hemit
  obtain ⟨r, -, hr, rfl, hbindgen⟩ := emit_state hemit
  obtain ⟨hresults, hlocals⟩ := render_operand hi hr
  rw [heq, hresults] at hs'
  obtain ⟨-, ho⟩ := List.append_inj' (hs'.trans (List.nil_append _).symm) rfl
  refine ⟨ops, below, hstack, hops, (List.cons.inj ho).1.symm, fun hb => ?_⟩
  rw [hbindgen]
  show s₁.bindgen.locals < s₁.bindgen.locals + r.locals
  rw [hlocals hb]
  exact Nat.lt_succ_self _

theorem operandsLen_of_liftsPrim (h : i.liftsPrim) : i.operandsLen W = 1 := by
  cases i <;> first | rfl | cases h

theorem liftArg_operand {p : Nat} (hW : W.Lawful p) {offset : Nat} {b b' : State} {o : Operand}
    (h : Puts (B := functionBindgen c) (liftArg W ty offset) b o b') :
    ∃ n, o = operandOf c [.var (.param offset)] n (dealias ty) ∧
      (binds (dealias ty) → n < b'.locals) := by
  obtain ⟨s, s', rfl, hs, h, hs', rfl⟩ := h
  obtain ⟨_, s₁, h₁, h₂⟩ := bind_inv h
  obtain ⟨i, s₂, hi, hemit, hprim⟩ := lift_last h₂
  obtain ⟨ops, below, hstack, hops, ho, hn⟩ := last_operand hi hemit hs'
  refine ⟨_, ?_, hn⟩
  cases hp : i.liftsPrim with
  | false => rw [ho, operandOf_congr hi hp ops [.var (.param offset)]]
  | true =>
    have hflat : (W.pushFlat ty).length = 1 := by
      clear * - hi hp hW
      induction hi with
      | @prim q => rw [hW.flat_prim]; rfl
      | type _ ih => rw [hW.flat_type]; exact ih hp
      | _ => cases hp
    have hs₁ := getArgs_stack h₁
    rw [hs, hflat, List.nil_append, ← hprim hp, hstack] at hs₁
    rw [operandsLen_of_liftsPrim hp] at hops
    obtain ⟨-, rfl⟩ := List.append_inj' (hs₁.trans (List.nil_append _).symm) hops
    exact ho

theorem readArg_operand {ptr : Operand} {offset : ArchitectureSize} {b b' : State} {o : Operand}
    (h : Puts (B := functionBindgen c) (readFromMemory W ty ptr offset) b o b') :
    ∃ n, o = operandOf c [.text] n (dealias ty) ∧ (binds (dealias ty) → n < b'.locals) := by
  obtain ⟨s, s', rfl, hs, h, hs', rfl⟩ := h
  obtain ⟨i, s₁, hi, hemit, hprim⟩ := readFromMemory_last h
  obtain ⟨ops, below, hstack, hops, ho, hn⟩ := last_operand hi hemit hs'
  refine ⟨_, ?_, hn⟩
  cases hp : i.liftsPrim with
  | false => rw [ho, operandOf_congr hi hp ops [.text]]
  | true =>
    obtain ⟨l, hl, hload⟩ := hprim hp
    obtain ⟨below', ops', rs, hstack', hops', hemit', hrs, hs₁⟩ := emit_inv hload
    obtain ⟨r, -, hr, rfl, -⟩ := emit_state hemit'
    have hresults : r.results = [.text] := by
      cases l <;> first | (cases hr; rfl) | cases hl
    rw [operandsLen_of_liftsPrim hp] at hops
    rw [hs₁, hresults] at hstack
    obtain ⟨-, rfl⟩ := List.append_inj' hstack hops.symm
    exact ho

end

end WitBindgen.CSharp.FunctionBindgen
