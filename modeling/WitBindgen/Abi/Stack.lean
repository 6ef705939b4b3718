import WitBindgen.Abi.Phases

/-!
# The operand stack of the generator

What an emitter does, it does with the operands on top of the stack: it takes as many as
the instructions at its start want, leaves as many as those at its end give, and would do
the same whatever lies below. `lift` puts one operand in place of the flat values of its
type, and `readFromMemory` adds one.
-/

namespace WitBindgen

/-- The instructions that `lift` has for a scalar. -/
def Instruction.liftsPrim : Instruction → Bool
  | s8FromI32 | u8FromI32 | s16FromI32 | u16FromI32 | s32FromI32 | u32FromI32
  | s64FromI64 | u64FromI64 | charFromI32 | f32FromCoreF32 | f64FromCoreF64 | boolFromI32 => true
  | _ => false

namespace Generator

variable {W : WitParser} {B : Bindgen} {α β : Type}

/-- `g` puts `k` operands in place of the topmost `n`, whatever lies below, and what it
returns satisfies `R`. -/
def Takes (R : α → Prop) (n k : Nat) (g : Gen B α) : Prop :=
  ∀ s x s' base args, s.stack = base ++ args → args.length = n → g s = .ok (x, s') →
    ∃ rs, rs.length = k ∧ s'.stack = base ++ rs ∧ R x ∧
      ∀ base', g { s with stack := base' ++ args } = .ok (x, { s' with stack := base' ++ rs })

/-- An emitter of which only the effect matters. -/
abbrev Exchanges (n k : Nat) (g : Gen B α) : Prop := Takes (fun _ => True) n k g

namespace Takes

variable {R : α → Prop} {R' : β → Prop} {n m k : Nat}

theorem bind {g : Gen B α} {f : α → Gen B β} (hg : Takes R n m g)
    (hf : ∀ x, R x → Takes R' m k (f x)) : Takes R' n k (g >>= f) := by
  intro s y s' base args hstack hargs h
  obtain ⟨x, s₁, h₁, h₂⟩ := bind_inv h
  obtain ⟨ms, hms, hs₁, hx, hlocal⟩ := hg s x s₁ base args hstack hargs h₁
  obtain ⟨rs, hrs, hs', hy, hlocal'⟩ := hf x hx s₁ y s' base ms hs₁ hms h₂
  exact ⟨rs, hrs, hs', hy, fun base' => (bind_ok (hlocal base')).trans (hlocal' base')⟩

theorem and_then {g : Gen B α} {f : α → Gen B β} (hg : Exchanges n m g)
    (hf : ∀ x, Takes R' m k (f x)) : Takes R' n k (g >>= f) := hg.bind fun x _ => hf x

/-- What lies between the operands and the rest of the stack is left alone too. -/
theorem frame {g : Gen B α} (h : Takes R n k g) (i : Nat) : Takes R (i + n) (i + k) g := by
  intro s x s' base args hstack hargs hg
  obtain ⟨between, args, rfl, hbetween, hlen⟩ : ∃ between args', args = between ++ args' ∧
      between.length = i ∧ args'.length = n :=
    ⟨args.take i, args.drop i, (List.take_append_drop i args).symm,
      by rw [List.length_take, hargs]; omega, by rw [List.length_drop, hargs]; omega⟩
  rw [← List.append_assoc] at hstack
  obtain ⟨rs, hrs, hs', hx, hlocal⟩ := h s x s' _ args hstack hlen hg
  refine ⟨between ++ rs, by rw [List.length_append, hbetween, hrs],
    hs'.trans (List.append_assoc _ _ _), hx, fun base' => ?_⟩
  rw [← List.append_assoc, ← List.append_assoc]
  exact hlocal _

theorem pure {x : α} (h : R x) : Takes R n n (Pure.pure x : Gen B α) := by
  rintro s y s' base args hstack hargs ⟨⟩
  exact ⟨args, hargs, hstack, h, fun _ => rfl⟩

theorem done : Exchanges n n (Pure.pure () : Gen B Unit) := pure trivial

theorem panic (p : Panic) : Takes R n k (Generator.panic p : Gen B α) := by
  intro _ _ _ _ _ _ _ h
  cases h

theorem ite {c : Prop} [Decidable c] {g g' : Gen B α} (h : Takes R n k g) (h' : Takes R n k g') :
    Takes R n k (if c then g else g') := by
  split
  · exact h
  · exact h'

theorem orPanic (p : Panic) (o : Option α) : Takes (· ∈ o) n n (Generator.orPanic p o : Gen B α) := by
  cases o with
  | none => exact panic p
  | some x => exact pure rfl

theorem flatTypes (ty : Ty) :
    Takes (· = W.pushFlat ty) n n (Generator.flatTypes W ty : Gen B (List WasmType)) := by
  unfold Generator.flatTypes WitParser.flatTypes
  split
  · exact pure rfl
  · exact panic _

theorem valueOffset (key value : Ty) :
    Exchanges n n (Generator.valueOffset W key value : Gen B ArchitectureSize) := by
  unfold Generator.valueOffset
  cases ((W.fieldOffsets [key, value])[1]?.map (·.1)) with
  | none => exact panic _
  | some _ => exact pure trivial

theorem push {x : B.Operand} : Exchanges 0 1 (Generator.push x : Gen B Unit) := by
  rintro s u s' base args hstack hargs ⟨⟩
  obtain rfl := List.length_eq_zero_iff.mp hargs
  rw [List.append_nil] at hstack
  exact ⟨[x], rfl, congrArg (· ++ [x]) hstack, trivial, fun _ => by rw [List.append_nil]; rfl⟩

theorem extend {xs : List B.Operand} : Exchanges 0 xs.length (Generator.extend xs : Gen B Unit) := by
  rintro s u s' base args hstack hargs ⟨⟩
  obtain rfl := List.length_eq_zero_iff.mp hargs
  rw [List.append_nil] at hstack
  exact ⟨xs, rfl, congrArg (· ++ xs) hstack, trivial, fun _ => by rw [List.append_nil]; rfl⟩

theorem pop : Exchanges 1 0 (Generator.pop : Gen B B.Operand) := by
  intro s x s' base args hstack hargs h
  obtain ⟨y, rfl⟩ := List.length_eq_one_iff.mp hargs
  have hpop : ∀ (s : GenState B) base, s.stack = base ++ [y] →
      Generator.pop s = .ok (y, { s with stack := base }) := by
    intro s base hs
    simp only [Generator.pop, hs, List.getLast?_concat, List.dropLast_concat]
  obtain ⟨rfl, rfl⟩ := Prod.mk.inj (Except.ok.inj ((hpop s base hstack).symm.trans h))
  refine ⟨[], rfl, (List.append_nil _).symm, trivial, fun base' => ?_⟩
  rw [List.append_nil]
  exact hpop { s with stack := base' ++ [y] } base' rfl

theorem drain (n : Nat) :
    Takes (·.length = n) n 0 (Generator.drain n : Gen B (List B.Operand)) := by
  intro s x s' base args hstack hargs h
  have hdrain : ∀ (s : GenState B) base, s.stack = base ++ args →
      Generator.drain n s = .ok (args, { s with stack := base }) := by
    intro s base hs
    have hlen : (base ++ args).length - n = base.length := by rw [List.length_append, hargs]; omega
    unfold Generator.drain
    rw [hs, hlen, List.drop_left, List.take_left, if_pos (by rw [List.length_append, hargs]; omega)]
  obtain ⟨rfl, rfl⟩ := Prod.mk.inj (Except.ok.inj ((hdrain s base hstack).symm.trans h))
  refine ⟨[], rfl, (List.append_nil _).symm, hargs, fun base' => ?_⟩
  rw [List.append_nil]
  exact hdrain { s with stack := base' ++ args } base' rfl

theorem slice (i : Nat) (xs : List B.Operand) :
    Takes (·.length = i) n n (Generator.slice i xs : Gen B (List B.Operand)) := by
  unfold Generator.slice
  split
  · next h => exact pure (List.length_take_of_le h)
  · exact panic _

/-- A part of what was there before, on top of the stack. -/
theorem extend_slice (i : Nat) (xs : List B.Operand) {f : Gen B α} (hf : Takes R i k f) :
    Takes R 0 k (Generator.slice i xs >>= fun ys => Generator.extend ys >>= fun _ => f) :=
  (slice i xs).bind fun ys hys => by
    have hextend : Exchanges 0 ys.length (Generator.extend ys) := extend
    rw [hys] at hextend
    exact hextend.and_then fun _ => hf

theorem emit {i : Instruction} (hn : i.operandsLen W = n) (hk : i.resultsLen W = k) :
    Exchanges n k (Generator.emit W i : Gen B Unit) := by
  subst hn hk
  intro s u s' base args hstack hargs h
  obtain ⟨below, ops, results, hops, hlen, hemit, hresults, hs'⟩ := emit_inv h
  obtain ⟨rfl, rfl⟩ := List.append_inj' (hops.symm.trans hstack) (hlen.trans hargs.symm)
  refine ⟨results, hresults, by rw [hs'], trivial, fun base' => ?_⟩
  have hdrop : (base' ++ ops).length - i.operandsLen W = base'.length := by
    rw [List.length_append, hlen]; omega
  unfold Generator.emit
  dsimp only
  rw [if_pos (by rw [List.length_append, hlen]; omega), hdrop, List.drop_left, List.take_left, hemit]
  dsimp only
  rw [if_pos hresults, hs']

theorem pushBlock : Exchanges 0 0 (Generator.pushBlock : Gen B Unit) := by
  intro s u s' base args hstack hargs h
  obtain rfl := List.length_eq_zero_iff.mp hargs
  unfold Generator.pushBlock at h
  split at h <;> cases h
  next bindgen hb =>
    refine ⟨[], rfl, hstack, trivial, fun base' => ?_⟩
    unfold Generator.pushBlock
    dsimp only
    rw [hb]

theorem finishBlock (size : Nat) : Exchanges size 0 (Generator.finishBlock size : Gen B Unit) := by
  intro s u s' base args hstack hargs h
  have hdrop : ∀ base : List B.Operand, (base ++ args).length - size = base.length := by
    intro base
    rw [List.length_append, hargs]; omega
  have hle : ∀ base : List B.Operand, size ≤ (base ++ args).length := by
    intro base
    rw [List.length_append, hargs]; omega
  unfold Generator.finishBlock at h
  rw [hstack, if_pos (hle base), hdrop, List.drop_left, List.take_left] at h
  split at h <;> cases h
  next bindgen hb =>
    refine ⟨[], rfl, (List.append_nil _).symm, trivial, fun base' => ?_⟩
    unfold Generator.finishBlock
    dsimp only
    rw [if_pos (hle base'), hdrop, List.drop_left, List.take_left, hb, List.append_nil]

theorem block {size : Nat} {body : Gen B Unit} (h : Exchanges 0 size body) :
    Exchanges 0 0 (Generator.block size body) :=
  pushBlock.and_then fun _ => h.and_then fun _ => finishBlock size

theorem forM {ι : Type} {xs : List ι} {f : ι → Gen B PUnit} (h : ∀ x ∈ xs, Exchanges 0 k (f x)) :
    Exchanges 0 (xs.length * k) (xs.forM f) := by
  induction xs with
  | nil => rw [List.length_nil, Nat.zero_mul]; exact pure trivial
  | cons x xs ih =>
    have hrest := (ih fun y hy => h y (List.mem_cons_of_mem _ hy)).frame k
    rw [List.length_cons, Nat.succ_mul, Nat.add_comm]
    exact (h x List.mem_cons_self).and_then fun _ => hrest

theorem forM_blocks {ι : Type} {xs : List ι} {f : ι → Gen B PUnit}
    (h : ∀ x ∈ xs, Exchanges 0 0 (f x)) : Exchanges 0 0 (xs.forM f) := forM h

/-! ## Lifting -/

theorem castAll_length {src dst : List WasmType} {casts : List Bitcast}
    (h : casts ∈ castAll src dst) : casts.length ≤ dst.length := by
  induction dst generalizing src casts with
  | nil =>
    rw [castAll, List.zip_nil_right] at h
    cases h
    exact Nat.le_refl 0
  | cons b dst ih =>
    cases src with
    | nil => cases h; exact Nat.zero_le _
    | cons a src =>
      simp only [castAll, List.zip_cons_cons, List.mapM_cons, Option.mem_def,
        Option.bind_eq_bind, Option.bind_eq_some_iff] at h
      obtain ⟨c, -, cs, hcs, h⟩ := h
      cases h
      exact Nat.succ_le_succ (ih hcs)

theorem emitCasts (src dst : List WasmType) :
    Exchanges dst.length dst.length (Generator.emitCasts W src dst : Gen B Unit) := by
  refine (orPanic _ _).bind fun casts hcasts => ite ?_ done
  have hlen := castAll_length hcasts
  have hemit : Exchanges casts.length casts.length (Generator.emit W (.bitcasts casts) :
    Gen B Unit) := emit rfl rfl
  have hframed := hemit.frame (dst.length - casts.length)
  rwa [Nat.sub_add_cancel hlen] at hframed

theorem forEachRecordType {members : List (Member B)}
    (h : ∀ m ∈ members, Exchanges (W.pushFlat m.1).length 1 m.2) (args : List B.Operand) :
    Exchanges 0 members.length (forEachRecordType W members args) := by
  induction members generalizing args with
  | nil => exact done
  | cons m members ih =>
    have hrest := fun temp : List WasmType =>
      (ih (fun k hk => h k (List.mem_cons_of_mem _ hk)) (args.drop temp.length)).frame 1
    rw [List.length_cons, Nat.add_comm]
    refine (flatTypes m.1).bind fun temp htemp => ?_
    subst htemp
    exact extend_slice _ args ((h m List.mem_cons_self).and_then fun _ => hrest _)

theorem flatForEachRecordType (container : Ty) {members : List (Member B)}
    (h : ∀ m ∈ members, Exchanges (W.pushFlat m.1).length 1 m.2) :
    Exchanges (W.pushFlat container).length members.length
      (flatForEachRecordType W container members) := by
  refine (flatTypes container).bind fun temp htemp => ?_
  subst htemp
  exact (drain _).bind fun args _ => forEachRecordType h args

theorem flatForVariantArm (params : List WasmType) (hasResult : Bool) (inputs : List B.Operand)
    {arm : Option (Member B)} (h : ∀ m, arm = some m →
      Exchanges (W.pushFlat m.1).length (if hasResult then 1 else 0) m.2) :
    Exchanges 0 0 (flatForVariantArm W params hasResult inputs arm) := by
  refine block ?_
  cases arm with
  | none =>
    simp only [Option.isSome_none, Bool.and_false]
    exact done
  | some m =>
    simp only [Option.isSome_some, Bool.and_true]
    refine (flatTypes m.1).bind fun temp htemp => ?_
    subst htemp
    exact extend_slice _ inputs ((emitCasts _ _).and_then fun _ => h m rfl)

theorem flatForEachVariantArm (ty : Ty) (hasResult : Bool) {arms : List (Option (Member B))}
    (hflat : 0 < (W.pushFlat ty).length) (h : ∀ m, some m ∈ arms →
      Exchanges (W.pushFlat m.1).length (if hasResult then 1 else 0) m.2) :
    Exchanges (W.pushFlat ty).length 1 (flatForEachVariantArm W ty hasResult arms) := by
  refine (flatTypes ty).bind fun temp htemp => ?_
  subst htemp
  have hloop : Exchanges ((W.pushFlat ty).length - 1) 0 (do
      let inputs ← Generator.drain ((W.pushFlat ty).length - 1)
      arms.forM (Generator.flatForVariantArm W (W.pushFlat ty) hasResult inputs) : Gen B Unit) :=
    (drain _).bind fun inputs _ => forM_blocks fun arm harm =>
      flatForVariantArm _ _ inputs fun m hm => h m (hm ▸ harm)
  have hframed := hloop.frame 1
  rwa [Nat.add_sub_cancel' hflat] at hframed

theorem liftEach (i : Nat) {lift : Gen B Unit} (h : Exchanges i 1 lift) (n : Nat)
    (args : List B.Operand) : Exchanges 0 n (liftEach i lift n args) := by
  induction n generalizing args with
  | zero => exact done
  | succ n ih =>
    have hrest := (ih (args.drop i)).frame 1
    rw [Nat.add_comm 1 n] at hrest
    exact extend_slice i args (h.and_then fun _ => hrest)

theorem loadIntrepr (offset : ArchitectureSize) (repr : IntRepr) :
    Exchanges 1 1 (loadIntrepr W offset repr : Gen B Unit) := by
  cases repr <;> exact emit rfl rfl

theorem loadFlags (repr : FlagsRepr) (addr : B.Operand) (offset : ArchitectureSize) :
    Exchanges 0 repr.count (loadFlags W repr addr offset : Gen B Unit) := by
  cases repr with
  | u8 => exact push.and_then fun _ => loadIntrepr _ _
  | u16 => exact push.and_then fun _ => loadIntrepr _ _
  | u32 n =>
    have hloop : Exchanges 0 ((List.range n).length * 1) ((List.range n).forM fun i => do
        Generator.push addr
        Generator.emit W (.i32Load (offset.addBytes (i * 4))) : Gen B PUnit) :=
      forM fun i _ => push.and_then fun _ => emit rfl rfl
    rwa [List.length_range, Nat.mul_one] at hloop

theorem forEachField (hW : ∀ types, (W.fieldOffsets types).map (·.2) = types)
    {members : List (MemMember B)} (addr : B.Operand)
    (h : ∀ m ∈ members, ∀ offset, Exchanges 0 1 (m.2 addr offset)) (offset : ArchitectureSize) :
    Exchanges 0 members.length (forEachField W members addr offset) := by
  have hlen : (((W.fieldOffsets (members.map (·.1))).map (·.1)).zip members).length =
      members.length := by
    have hoffsets := congrArg List.length (hW (members.map (·.1)))
    rw [List.length_map, List.length_map] at hoffsets
    rw [List.length_zip, List.length_map, hoffsets, Nat.min_self]
  have hloop : Exchanges 0 ((((W.fieldOffsets (members.map (·.1))).map (·.1)).zip members).length
      * 1) (Generator.forEachField W members addr offset) :=
    forM fun x hx => h x.2 (List.of_mem_zip hx).2 _
  rwa [hlen, Nat.mul_one] at hloop

theorem readVariantArmsFromMemory (offset : ArchitectureSize) (addr : B.Operand) (tag : IntRepr)
    {arms : List (Option (MemMember B))}
    (h : ∀ m, some m ∈ arms → ∀ offset, Exchanges 0 1 (m.2 addr offset)) :
    Exchanges 0 1 (readVariantArmsFromMemory W offset addr tag arms) := by
  refine push.and_then fun _ => (loadIntrepr _ _).and_then fun _ =>
    (forM_blocks fun arm harm => block ?_).frame 1
  cases arm with
  | none => exact done
  | some m => exact h m harm _

theorem readListFromMemory (ty : Ty) {lift : Gen B Unit} (h : Exchanges 2 1 lift)
    (addr : B.Operand) (offset : ArchitectureSize) :
    Exchanges 0 1 (readListFromMemory W ty lift addr offset) := by
  have hload : ∀ i : Instruction, i.loads → Exchanges 1 1 (Generator.emit W i : Gen B Unit) := by
    intro i hi
    cases i <;> first | exact emit rfl rfl | cases hi
  exact push.and_then fun _ => (hload _ rfl).and_then fun _ => (push.frame 1).and_then fun _ =>
    ((hload _ rfl).frame 1).and_then fun _ => h

theorem emitAndLift {lift : Gen B Unit} (h : Exchanges 1 1 lift) (addr : B.Operand)
    {i : Instruction} (hi : i.loads) : Exchanges 0 1 (emitAndLift W lift addr i) := by
  refine push.and_then fun _ => Takes.and_then ?_ fun _ => h
  cases i <;> first | exact emit rfl rfl | cases hi

/-! ## Types -/

theorem lift_and_read {p : Nat} (hW : W.Lawful p) (ty : Ty) :
    Exchanges (W.pushFlat ty).length 1 (Generator.lift W ty : Gen B Unit) ∧
      ∀ addr offset, Exchanges 0 1 (Generator.readFromMemory W ty addr offset : Gen B Unit) := by
  induction ty using Ty.ind with
  | prim q =>
    rw [hW.flat_prim]
    refine flat_and_memory ?_ fun hlift addr offset => ?_
    · rw [Generator.lift]
      cases q <;> exact emit rfl rfl
    · rw [Generator.readFromMemory]
      exact emitAndLift hlift addr (by cases q <;> rfl)
  | errorContext | handle | future | stream =>
    first | rw [hW.flat_errorContext] | rw [hW.flat_handle] | rw [hW.flat_future] | rw [hW.flat_stream]
    refine flat_and_memory ?_ fun hlift addr offset => ?_
    · rw [Generator.lift]
      exact emit rfl rfl
    · rw [Generator.readFromMemory]
      exact emitAndLift hlift addr rfl
  | string =>
    rw [hW.flat_string]
    refine flat_and_memory ?_ fun hlift addr offset => ?_
    · rw [Generator.lift]
      exact emit rfl rfl
    · rw [Generator.readFromMemory]
      exact readListFromMemory _ hlift addr offset
  | type id t ih =>
    rw [hW.flat_type, Generator.lift]
    refine ih.imp_right fun hread addr offset => ?_
    rw [Generator.readFromMemory]
    exact hread addr offset
  | list id t ih =>
    obtain ⟨-, hread⟩ := ih
    rw [hW.flat_list]
    refine flat_and_memory ?_ fun hlift addr offset => ?_
    · rw [Generator.lift]
      refine (pure trivial).and_then fun canonical => ite (emit rfl rfl) ?_
      refine Takes.and_then ((block ?_).frame 2) fun _ => emit rfl rfl
      exact (emit (n := 0) (k := 1) rfl rfl).and_then fun _ => pop.and_then fun addr =>
        hread addr _
    · rw [Generator.readFromMemory]
      exact readListFromMemory _ hlift addr offset
  | map id k t ihk iht =>
    obtain ⟨-, hkey⟩ := ihk
    obtain ⟨-, hvalue⟩ := iht
    rw [hW.flat_map]
    refine flat_and_memory ?_ fun hlift addr offset => ?_
    · rw [Generator.lift]
      refine (valueOffset k t).and_then fun offset => ?_
      refine Takes.and_then ((block ?_).frame 2) fun _ => emit rfl rfl
      exact (emit (n := 0) (k := 1) rfl rfl).and_then fun _ => pop.and_then fun addr =>
        (hkey addr _).and_then fun _ => (hvalue addr _).frame 1
    · rw [Generator.readFromMemory]
      exact readListFromMemory _ hlift addr offset
  | fixedLengthList id t n ih =>
    obtain ⟨hlift, hread⟩ := ih
    refine ⟨?_, fun addr offset => ?_⟩
    · have hlen : (W.pushFlat (.fixedLengthList id t n)).length = (W.pushFlat t).length * n := by
        rw [hW.flat_fixedLengthList, List.length_flatten, List.map_replicate,
          List.sum_replicate_nat, Nat.mul_comm]
      rw [hlen, Generator.lift]
      refine (flatTypes t).bind fun temp htemp => ?_
      subst htemp
      exact (drain _).bind fun args _ => (liftEach _ hlift n args).and_then fun _ => emit rfl rfl
    · rw [Generator.readFromMemory]
      refine (block ?_).and_then fun _ => push.and_then fun _ => emit rfl rfl
      exact (emit (n := 0) (k := 1) rfl rfl).and_then fun _ => pop.and_then fun addr =>
        hread addr _
  | fields ty types hf ih =>
    obtain ⟨i, hi, hlift, hread⟩ := lift_fields_eq (W := W) (B := B) hf
    have hemit : Exchanges types.length 1 (Generator.emit W i : Gen B Unit) := by
      cases hi with
      | record => exact emit (List.length_map _).symm rfl
      | tuple => exact emit rfl rfl
    refine ⟨?_, fun addr offset => ?_⟩
    · rw [hlift]
      have hmembers := flatForEachRecordType (W := W) ty ((List.forall_mem_map
        (f := fun t => (t, Generator.lift W t))).mpr fun t ht => (ih t ht).1)
      rw [List.length_map] at hmembers
      exact hmembers.and_then fun _ => hemit
    · rw [hread]
      have hmembers := forEachField hW.fieldOffsets_types addr ((List.forall_mem_map
        (f := fun t => (t, Generator.readFromMemory W t))).mpr fun t ht => (ih t ht).2 addr) offset
      rw [List.length_map] at hmembers
      exact hmembers.and_then fun _ => hemit
  | flags id name names =>
    rw [hW.flat_flags, List.length_replicate]
    refine flat_and_memory ?_ fun hlift addr offset => ?_
    · rw [Generator.lift]
      exact emit rfl rfl
    · rw [Generator.readFromMemory]
      exact (loadFlags _ addr offset).and_then fun _ => hlift
  | arms ty arms ha ih =>
    obtain ⟨i, hi, hlift, hread⟩ := lift_arms_eq (W := W) (B := B) ha
    obtain ⟨slots, hslots, -⟩ := hW.flat_arms ty arms ha
    have hemit : Exchanges 1 1 (Generator.emit W i : Gen B Unit) := by
      cases hi <;> exact emit rfl rfl
    have hpos : 0 < (W.pushFlat ty).length := by rw [hslots]; exact Nat.succ_pos _
    refine ⟨?_, fun addr offset => ?_⟩
    · rw [hlift]
      refine (flatForEachVariantArm ty true hpos fun m hm => ?_).and_then fun _ => hemit
      obtain ⟨o, ho, hm⟩ := List.mem_map.mp hm
      cases o with
      | none => cases hm
      | some t => cases hm; exact (ih t ho).1
    · rw [hread]
      refine (readVariantArmsFromMemory offset addr _ fun m hm => ?_).and_then fun _ => hemit
      obtain ⟨o, ho, hm⟩ := List.mem_map.mp hm
      cases o with
      | none => cases hm
      | some t => cases hm; exact (ih t ho).2 addr
  | enum id name cases' =>
    rw [hW.flat_enum]
    refine flat_and_memory ?_ fun hlift addr offset => ?_
    · rw [Generator.lift]
      exact emit rfl rfl
    · rw [Generator.readFromMemory]
      exact push.and_then fun _ => (loadIntrepr _ _).and_then fun _ => hlift
  | resource | unknown =>
    refine ⟨by rw [Generator.lift]; exact panic _, fun addr offset => ?_⟩
    rw [Generator.readFromMemory]
    exact panic _

end Takes

/-! ## The end of lifting -/

/-- `i` is the instruction that the lifting of a value of the type ends with. -/
inductive LiftsWith : Ty → Instruction → Prop where
  | prim {q} : LiftsWith (.prim q) (liftPrim q)
  | string : LiftsWith .string .stringLift
  | errorContext : LiftsWith .errorContext .errorContextLift
  | type {id t i} : LiftsWith t i → LiftsWith (.type id t) i
  | listCanon {id t} : LiftsWith (.list id t) (.listCanonLift t id)
  | list {id t} : LiftsWith (.list id t) (.listLift t id)
  | map {id k v} : LiftsWith (.map id k v) (.mapLift k v id)
  | fixedLengthList {id t n} : LiftsWith (.fixedLengthList id t n) (.fixedLengthListLift t n id)
  | fixedLengthListFromMemory {id t n} :
      LiftsWith (.fixedLengthList id t n) (.fixedLengthListLiftFromMemory t n id)
  | record {id name fields} : LiftsWith (.record id name fields) (.recordLift fields name id)
  | tuple {id types} : LiftsWith (.tuple id types) (.tupleLift types id)
  | flags {id name names} : LiftsWith (.flags id name names) (.flagsLift names name id)
  | variant {id name cases} : LiftsWith (.variant id name cases) (.variantLift cases name id)
  | enum {id name cases} : LiftsWith (.enum id name cases) (.enumLift cases name id)
  | option {id t} : LiftsWith (.option id t) (.optionLift t id)
  | result {id ok err} : LiftsWith (.result id ok err) (.resultLift ok err id)
  | handle {id h name} : LiftsWith (.handle id h name) (.handleLift h name id)
  | future {id t} : LiftsWith (.future id t) (.futureLift t id)
  | stream {id t} : LiftsWith (.stream id t) (.streamLift t id)

section
variable {s s' : GenState B}

/-- Nothing comes before the last instruction where a scalar is lifted. -/
theorem lift_last {ty : Ty} (h : (lift W ty : Gen B Unit) s = .ok ((), s')) :
    ∃ i s₁, LiftsWith ty i ∧ emit W i s₁ = .ok ((), s') ∧ (i.liftsPrim → s₁ = s) := by
  induction ty using Ty.ind with
  | prim q => rw [lift] at h; exact ⟨_, s, .prim, h, fun _ => rfl⟩
  | string => rw [lift] at h; exact ⟨_, _, .string, h, by simp⟩
  | errorContext => rw [lift] at h; exact ⟨_, _, .errorContext, h, by simp⟩
  | type id t ih =>
    rw [lift] at h
    obtain ⟨i, s₁, hi, hemit, hs₁⟩ := ih h
    exact ⟨i, s₁, .type hi, hemit, hs₁⟩
  | list id t =>
    rw [lift] at h
    obtain ⟨canonical, s₁, h₁, h⟩ := bind_inv h
    split at h
    · exact ⟨_, _, .listCanon, h, by intro h; cases h⟩
    · obtain ⟨_, s₂, -, h⟩ := bind_inv h
      exact ⟨_, _, .list, h, by intro h; cases h⟩
  | map id k v =>
    rw [lift] at h
    obtain ⟨_, s₁, -, h⟩ := bind_inv h
    obtain ⟨_, s₂, -, h⟩ := bind_inv h
    exact ⟨_, _, .map, h, by intro h; cases h⟩
  | fixedLengthList id t n =>
    rw [lift] at h
    obtain ⟨_, s₁, -, h⟩ := bind_inv h
    obtain ⟨_, s₂, -, h⟩ := bind_inv h
    obtain ⟨_, s₃, -, h⟩ := bind_inv h
    exact ⟨_, _, .fixedLengthList, h, by intro h; cases h⟩
  | fields ty types hf =>
    obtain ⟨i, hi, hlift, -⟩ := lift_fields_eq (W := W) (B := B) hf
    rw [hlift] at h
    obtain ⟨_, s₁, -, hemit⟩ := bind_inv h
    cases hi with
    | record => exact ⟨_, _, .record, hemit, by intro h; cases h⟩
    | tuple => exact ⟨_, _, .tuple, hemit, by intro h; cases h⟩
  | flags id name names => rw [lift] at h; exact ⟨_, _, .flags, h, by simp⟩
  | arms ty arms ha =>
    obtain ⟨i, hi, hlift, -⟩ := lift_arms_eq (W := W) (B := B) ha
    rw [hlift] at h
    obtain ⟨_, s₁, -, hemit⟩ := bind_inv h
    cases hi with
    | variant => exact ⟨_, _, .variant, hemit, by intro h; cases h⟩
    | option => exact ⟨_, _, .option, hemit, by intro h; cases h⟩
    | result => exact ⟨_, _, .result, hemit, by intro h; cases h⟩
  | enum id name cases' => rw [lift] at h; exact ⟨_, _, .enum, h, by simp⟩
  | handle id h' name => rw [lift] at h; exact ⟨_, _, .handle, h, by simp⟩
  | future id t => rw [lift] at h; exact ⟨_, _, .future, h, by simp⟩
  | stream id t => rw [lift] at h; exact ⟨_, _, .stream, h, by simp⟩
  | resource | unknown => rw [lift] at h; cases h

/-- And what comes before it where a scalar is read is one load. -/
theorem readFromMemory_last {ty : Ty} {addr : B.Operand} {offset : ArchitectureSize}
    (h : (readFromMemory W ty addr offset : Gen B Unit) s = .ok ((), s')) :
    ∃ i s₁, LiftsWith ty i ∧ emit W i s₁ = .ok ((), s') ∧
      (i.liftsPrim → ∃ l : Instruction, l.loads ∧
        emit W l { s with stack := s.stack ++ [addr] } = .ok ((), s₁)) := by
  have hword : ∀ {ty : Ty} {l : Instruction} {s' : GenState B}, l.loads →
      emitAndLift W (lift W ty) addr l s = .ok ((), s') →
        ∃ i s₁, LiftsWith ty i ∧ emit W i s₁ = .ok ((), s') ∧
          (i.liftsPrim → ∃ l : Instruction, l.loads ∧
            emit W l { s with stack := s.stack ++ [addr] } = .ok ((), s₁)) := by
    intro ty l s' hl h
    obtain ⟨_, s₁, h₁, h⟩ := bind_inv h
    cases h₁
    obtain ⟨_, s₂, h₂, h₃⟩ := bind_inv h
    obtain ⟨i, s₃, hi, hemit, hs₃⟩ := lift_last h₃
    exact ⟨i, s₃, hi, hemit, fun hp => ⟨l, hl, by rw [hs₃ hp]; exact h₂⟩⟩
  have hpair : ∀ {ty : Ty} {s' : GenState B}, (∀ i, LiftsWith ty i → i.liftsPrim = false) →
      readListFromMemory W ty (lift W ty) addr offset s = .ok ((), s') →
        ∃ i s₁, LiftsWith ty i ∧ emit W i s₁ = .ok ((), s') ∧
          (i.liftsPrim → ∃ l : Instruction, l.loads ∧
            emit W l { s with stack := s.stack ++ [addr] } = .ok ((), s₁)) := by
    intro ty s' hty h
    obtain ⟨_, s₁, -, h⟩ := bind_inv h
    obtain ⟨_, s₂, -, h⟩ := bind_inv h
    obtain ⟨_, s₃, -, h⟩ := bind_inv h
    obtain ⟨_, s₄, -, h⟩ := bind_inv h
    obtain ⟨i, s₅, hi, hemit, -⟩ := lift_last h
    exact ⟨i, s₅, hi, hemit, fun hp => by rw [hty i hi] at hp; cases hp⟩
  induction ty using Ty.ind with
  | prim q => rw [readFromMemory] at h; exact hword (by cases q <;> rfl) h
  | string => rw [readFromMemory] at h; exact hpair (fun i hi => by cases hi; rfl) h
  | errorContext | handle | future | stream => rw [readFromMemory] at h; exact hword rfl h
  | type id t ih =>
    rw [readFromMemory] at h
    obtain ⟨i, s₁, hi, hemit, hs₁⟩ := ih h
    exact ⟨i, s₁, .type hi, hemit, hs₁⟩
  | list id t => rw [readFromMemory] at h; exact hpair (fun i hi => by cases hi <;> rfl) h
  | map id k v => rw [readFromMemory] at h; exact hpair (fun i hi => by cases hi; rfl) h
  | fixedLengthList id t n =>
    rw [readFromMemory] at h
    obtain ⟨_, s₁, -, h⟩ := bind_inv h
    obtain ⟨_, s₂, -, h⟩ := bind_inv h
    exact ⟨_, _, .fixedLengthListFromMemory, h, by intro h; cases h⟩
  | fields ty types hf =>
    obtain ⟨i, hi, -, hread⟩ := lift_fields_eq (W := W) (B := B) hf
    rw [hread] at h
    obtain ⟨_, s₁, -, hemit⟩ := bind_inv h
    cases hi with
    | record => exact ⟨_, _, .record, hemit, by intro h; cases h⟩
    | tuple => exact ⟨_, _, .tuple, hemit, by intro h; cases h⟩
  | flags id name names =>
    rw [readFromMemory] at h
    obtain ⟨_, s₁, -, h⟩ := bind_inv h
    rw [lift] at h
    exact ⟨_, _, .flags, h, by intro h; cases h⟩
  | arms ty arms ha =>
    obtain ⟨i, hi, -, hread⟩ := lift_arms_eq (W := W) (B := B) ha
    rw [hread] at h
    obtain ⟨_, s₁, -, hemit⟩ := bind_inv h
    cases hi with
    | variant => exact ⟨_, _, .variant, hemit, by intro h; cases h⟩
    | option => exact ⟨_, _, .option, hemit, by intro h; cases h⟩
    | result => exact ⟨_, _, .result, hemit, by intro h; cases h⟩
  | enum id name cases' =>
    rw [readFromMemory] at h
    obtain ⟨_, s₁, -, h⟩ := bind_inv h
    obtain ⟨_, s₂, -, h⟩ := bind_inv h
    rw [lift] at h
    exact ⟨_, _, .enum, h, by intro h; cases h⟩
  | resource | unknown => rw [readFromMemory] at h; cases h

end

/-! ## Arguments of exports -/

/-- From `b` to `b'`, `g` puts the operand `r` on the stack. -/
def Puts (g : Gen B Unit) (b : B.State) (r : B.Operand) (b' : B.State) : Prop :=
  ∃ s s', s.bindgen = b ∧ s.stack = [] ∧ g s = .ok ((), s') ∧ s'.stack = [r] ∧ s'.bindgen = b'

inductive Each : List (Gen B Unit) → B.State → List B.Operand → B.State → Prop where
  | nil {b} : Each [] b [] b
  | cons {g gs b r b₁ rs b'} : Puts g b r b₁ → Each gs b₁ rs b' → Each (g :: gs) b (r :: rs) b'

theorem Takes.puts {g : Gen B Unit} (hg : Exchanges 0 1 g) {s s' : GenState B}
    (h : g s = .ok ((), s')) : ∃ r, s'.stack = s.stack ++ [r] ∧ Puts g s.bindgen r s'.bindgen := by
  obtain ⟨rs, hrs, hs', -, hlocal⟩ := hg s () s' s.stack [] (List.append_nil _).symm rfl h
  obtain ⟨r, rfl⟩ := List.length_eq_one_iff.mp hrs
  exact ⟨r, hs', { s with stack := [] }, { s' with stack := [r] }, rfl, rfl, hlocal [], rfl, rfl⟩

theorem Takes.getArgs (offset n : Nat) : Exchanges 0 n (getArgs W offset n : Gen B Unit) := by
  have hloop : Exchanges 0 ((List.range' offset n).length * 1) ((List.range' offset n).forM
      fun nth => Generator.emit W (.getArg nth) : Gen B PUnit) := forM fun _ _ => emit rfl rfl
  rwa [List.length_range', Nat.mul_one] at hloop

/-- One argument from the core parameters, from `offset` on. -/
def liftArg (W : WitParser) {B : Bindgen} (ty : Ty) (offset : Nat) : Gen B Unit := do
  getArgs W offset (W.pushFlat ty).length
  lift W ty

def argGens (W : WitParser) {B : Bindgen} : List Ty → Nat → List (Gen B Unit)
  | [], _ => []
  | ty :: params, offset =>
    liftArg W ty offset :: argGens W params (offset + (W.pushFlat ty).length)

/-- And from memory. -/
def readGens (W : WitParser) {B : Bindgen} (ptr : B.Operand) :
    List Ty → ArchitectureSize → List (Gen B Unit)
  | [], _ => []
  | ty :: params, offset =>
    readFromMemory W ty ptr (W.alignToArch offset (W.align ty)) ::
      readGens W ptr params (W.alignToArch offset (W.align ty) + W.size ty)

section
variable {p : Nat} (hW : W.Lawful p)
include hW

theorem Takes.liftArg (ty : Ty) (offset : Nat) :
    Exchanges 0 1 (liftArg W ty offset : Gen B Unit) :=
  (getArgs _ _).and_then fun _ => (lift_and_read hW ty).1

theorem liftArgs_each {maxFlat : Nat} {params : List Ty} {offset : Nat} {s s' : GenState B}
    (h : liftArgs W maxFlat params offset s = .ok ((), s')) :
    ∃ rs, s'.stack = s.stack ++ rs ∧ Each (argGens W params offset) s.bindgen rs s'.bindgen := by
  induction params generalizing offset s with
  | nil => cases h; exact ⟨[], (List.append_nil _).symm, .nil⟩
  | cons ty params ih =>
    obtain ⟨types, s₁, h₁, h₂⟩ := bind_inv h
    obtain ⟨htypes, hs₁⟩ : types = W.pushFlat ty ∧ s₁ = s := by
      unfold WitParser.flatTypes at h₁
      split at h₁ <;> cases h₁
      exact ⟨rfl, rfl⟩
    subst htypes hs₁
    obtain ⟨_, s₂, h₂, h₃⟩ := bind_inv h₂
    obtain ⟨_, s₃, h₃, h₄⟩ := bind_inv h₃
    obtain ⟨r, hr, hputs⟩ := (Takes.liftArg hW ty offset).puts ((bind_ok h₂).trans h₃)
    obtain ⟨rs, hrs, heach⟩ := ih h₄
    exact ⟨r :: rs, by rw [hrs, hr, List.append_assoc]; rfl, .cons hputs heach⟩

theorem forEachParam_each {params : List Ty} {ptr : B.Operand} {offset : ArchitectureSize}
    {s s' : GenState B} (h : forEachParam W (params.map fun ty => (ty, readFromMemory W ty ptr))
      offset s = .ok ((), s')) :
    ∃ rs, s'.stack = s.stack ++ rs ∧ Each (readGens W ptr params offset) s.bindgen rs s'.bindgen := by
  induction params generalizing offset s with
  | nil => cases h; exact ⟨[], (List.append_nil _).symm, .nil⟩
  | cons ty params ih =>
    obtain ⟨_, s₁, h₁, h₂⟩ := bind_inv h
    obtain ⟨r, hr, hputs⟩ := ((Takes.lift_and_read hW ty).2 ptr _).puts h₁
    obtain ⟨rs, hrs, heach⟩ := ih h₂
    exact ⟨r :: rs, by rw [hrs, hr, List.append_assoc]; rfl, .cons hputs heach⟩

/-- The arguments of an export are put on the stack one by one. -/
theorem exportArgs_each {func : Function} {sig : WasmSignature} {s s' : GenState B}
    (hs : s.stack = []) (h : exportArgs W func sig s = .ok ((), s')) :
    (sig.indirectParams = false ∧ Each (argGens W func.paramTypes 0) s.bindgen s'.stack s'.bindgen) ∨
      (sig.indirectParams = true ∧ ∃ ptr b, B.emit (.getArg 0) [] s.bindgen = .ok ([ptr], b) ∧
        Each (readGens W ptr func.paramTypes default) b s'.stack s'.bindgen) := by
  unfold exportArgs at h
  split at h
  · next hind =>
      obtain ⟨_, s₁, h₁, h⟩ := bind_inv h
      obtain ⟨ptr, s₂, h₂, h₃⟩ := bind_inv h
      obtain ⟨below, ops, results, hstack, hlen, hemit, hresults, hs₁⟩ := emit_inv h₁
      obtain rfl := List.length_eq_zero_iff.mp hlen
      obtain ⟨r, rfl⟩ := List.length_eq_one_iff.mp hresults
      rw [hs, List.append_nil] at hstack
      subst hstack
      rw [hs₁] at h₂
      cases h₂
      obtain ⟨rs, hrs, heach⟩ := forEachParam_each hW h₃
      obtain rfl : s'.stack = rs := hrs
      exact .inr ⟨hind, r, _, hemit, heach⟩
  · next hind =>
      obtain ⟨rs, hrs, heach⟩ := liftArgs_each hW h
      rw [hs] at hrs
      obtain rfl : s'.stack = rs := hrs
      exact .inl ⟨Bool.eq_false_iff.mpr hind, heach⟩

end

theorem Each.length_eq {gs : List (Gen B Unit)} {b b' : B.State} {rs : List B.Operand}
    (h : Each gs b rs b') : rs.length = gs.length := by
  induction h with
  | nil => rfl
  | cons _ _ ih => exact congrArg (· + 1) ih

end Generator

end WitBindgen
