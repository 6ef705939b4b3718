import WitBindgen.Go.Texts
import Mathlib.Data.List.Forall2

/-!
# What lifted operands still evaluate

A value that was read from memory and is handed on as an expression is loaded where that
expression is evaluated. Lists, strings, maps and everything with cases are put in a variable
first.
-/

namespace WitBindgen

/-- Reading a value of the type leaves a load in its expression. -/
inductive Ty.Residual : Ty → Prop where
  | prim {p} : Residual (.prim p)
  | flags {id name names} : Residual (.flags id name names)
  | enum {id name cases} : Residual (.enum id name cases)
  | handle {id h name} : Residual (.handle id h name)
  | future {id t} : Residual (.future id t)
  | stream {id t} : Residual (.stream id t)
  | type {id t} : Residual t → Residual (.type id t)
  | fields {ty types t} : ty.fieldTypes = some types → t ∈ types → Residual t → Residual ty

theorem Ty.residual_type {id : TypeId} {t : Ty} : (Ty.type id t).Residual ↔ t.Residual := by
  refine ⟨fun h => ?_, .type⟩
  cases h with
  | type h => exact h
  | fields hf _ _ => cases hf

theorem Ty.residual_fields {ty : Ty} {types : List Ty} (hf : ty.fieldTypes = some types) :
    ty.Residual ↔ ∃ t ∈ types, t.Residual := by
  refine ⟨fun h => ?_, fun ⟨t, ht, hr⟩ => .fields hf ht hr⟩
  cases h with
  | fields hf' ht hr =>
    obtain rfl := Option.some.inj (hf.symm.trans hf')
    exact ⟨_, ht, hr⟩
  | _ => cases hf

theorem Ty.not_residual_arms {ty : Ty} {arms : List (Option Ty)} (ha : ty.arms = some arms) :
    ¬ty.Residual := by
  intro h
  cases h with
  | @fields _ types t hf _ _ => cases ty <;> first | (cases hf; done) | cases ha
  | _ => cases ha

namespace Go

open Trace Generator

variable {W : WitParser} {c : Config}

abbrev GoGen (W : WitParser) (c : Config) := Gen (functionGenerator W c)

/-! ## Stacks -/

/-- What `emit` leaves on the stack in place of its operands. -/
theorem emit_stack {i : Instruction} {s s' : GenState (functionGenerator W c)}
    (h : emit W i s = .ok ((), s')) {base ops : List Operand} (hstack : s.stack = base ++ ops)
    (hops : ops.length = i.operandsLen W) : ∃ blocks stmts results,
      render W c i ops blocks = .ok (stmts, results) ∧ s'.stack = base ++ results := by
  obtain ⟨below, ops', results, hstack', hops', hemit, -, hs'⟩ := emit_inv h
  obtain ⟨rfl, rfl⟩ := List.append_inj' (hstack'.symm.trans hstack) (hops'.trans hops.symm)
  change (if _ then _ else _) = _ at hemit
  split at hemit
  · cases hr : render W c i ops' (s.bindgen.blocks.drop
        (s.bindgen.blocks.length - blocksTaken i)) with
    | error e => rw [hr] at hemit; cases hemit
    | ok r =>
      rw [hr] at hemit
      obtain ⟨rfl, -⟩ := Prod.mk.inj (Except.ok.inj hemit)
      exact ⟨_, r.1, r.2, hr, by rw [hs']⟩
  · cases hemit

/-- The renderings of an instruction hand back `results` for the operands `ops`. -/
def Yields (W : WitParser) (c : Config) (i : Instruction) (ops results : List Operand) : Prop :=
  ops.length = i.operandsLen W ∧
    ∀ blocks stmts rs, render W c i ops blocks = .ok (stmts, rs) → rs = results

theorem Yields.emit {i : Instruction} {ops results base : List Operand}
    (hy : Yields W c i ops results) {s s' : GenState (functionGenerator W c)}
    (h : emit W i s = .ok ((), s')) (hstack : s.stack = base ++ ops) :
    s'.stack = base ++ results := by
  obtain ⟨blocks, stmts, rs, hr, hs'⟩ := emit_stack h hstack hy.1
  rw [hs', hy.2 blocks stmts rs hr]

theorem yields_unary {i : Instruction} {op : Operand} (hops : i.operandsLen W = 1)
    (h : ∀ blocks, render W c i [op] blocks = unary [op]) : Yields W c i [op] [op] := by
  refine ⟨hops.symm, fun blocks stmts rs hr => ?_⟩
  rw [h] at hr
  cases hr
  rfl

theorem yields_load {i : Instruction} {op : Operand} (hi : i.loads) :
    Yields W c i [op] [op + 1] := by
  cases i <;> first | (cases hi; done) | exact ⟨rfl, fun _ _ _ hr => by cases hr; rfl⟩

theorem liftLoop_results {n : Nat} {ops results : List Operand} {blocks : List Block}
    {stmts : Text Act} (h : liftLoop n ops blocks = .ok (stmts, results)) : results = [0] := by
  unfold liftLoop at h
  split at h
  · split at h <;> cases h
    rfl
  · cases h

theorem liftCases_results {payloads : List Bool} {ops results : List Operand}
    {blocks : List Block} {stmts : Text Act}
    (h : liftCases payloads ops blocks = .ok (stmts, results)) : results = [0] := by
  unfold liftCases at h
  split at h
  · generalize List.mapM (m := Except _) _ (payloads.zip blocks) = q at h
    cases q with
    | error e => cases h
    | ok arms => cases h; rfl
  · cases h

theorem render_liftsArms {i : Instruction} (hi : i.liftsArms) :
    ∃ payloads, ∀ ops blocks, render W c i ops blocks = liftCases payloads ops blocks := by
  cases i <;> first | (cases hi; done) | exact ⟨_, fun _ _ => rfl⟩

theorem yields_liftCases {i : Instruction} {op : Operand} (hi : i.liftsArms) :
    Yields W c i [op] [0] := by
  obtain ⟨payloads, hrender⟩ := render_liftsArms (W := W) (c := c) hi
  have hlen : ([op] : List Operand).length = i.operandsLen W := by
    cases i <;> first | rfl | cases hi
  refine ⟨hlen, fun blocks stmts rs hr => ?_⟩
  rw [hrender] at hr
  exact liftCases_results hr

theorem yields_view {i : Instruction} {p l : Operand}
    (h : i = .stringLift ∨ ∃ t id, i = .listCanonLift t id) : Yields W c i [p, l] [0] := by
  rcases h with rfl | ⟨t, id, rfl⟩ <;> exact ⟨rfl, fun _ _ _ hr => by cases hr; rfl⟩

theorem yields_liftLoop {i : Instruction} {p l : Operand}
    (h : (∃ t id, i = .listLift t id) ∨ ∃ k t id, i = .mapLift k t id) :
    Yields W c i [p, l] [0] := by
  rcases h with ⟨t, id, rfl⟩ | ⟨k, t, id, rfl⟩ <;>
    exact ⟨rfl, fun _ _ _ hr => by change liftLoop _ _ _ = _ at hr; exact liftLoop_results hr⟩

theorem yields_fields {i : Instruction} {ops : List Operand}
    (h : (∃ fields name id, i = .recordLift fields name id ∧ ops.length = fields.length) ∨
      ∃ types id, i = .tupleLift types id ∧ ops.length = types.length) :
    Yields W c i ops [ops.sum] := by
  rcases h with ⟨fields, name, id, rfl, hlen⟩ | ⟨types, id, rfl, hlen⟩
  · refine ⟨hlen, fun _ _ _ hr => ?_⟩
    cases hr
    rw [List.take_of_length_le (Nat.le_of_eq hlen)]
  · exact ⟨hlen, fun _ _ _ hr => by cases hr; rfl⟩

/-! ### Steps that leave the stack alone -/

theorem push_inv {x : Operand} {s s' : GenState (functionGenerator W c)} {u : Unit}
    (h : (push x : GoGen W c Unit) s = .ok (u, s')) : s'.stack = s.stack ++ [x] := by
  cases h
  rfl

theorem pop_inv {x : Operand} {s s' : GenState (functionGenerator W c)} {base : List Operand}
    {y : Operand} (h : (pop : GoGen W c Operand) s = .ok (x, s')) (hstack : s.stack = base ++ [y]) :
    x = y ∧ s'.stack = base := by
  simp only [pop, hstack, List.getLast?_append, List.getLast?_singleton, Option.some_or,
    List.dropLast_concat] at h
  cases h
  exact ⟨rfl, rfl⟩

/-- A block around a body that leaves `size` operands behind takes them with it. -/
theorem block_stack {size : Nat} {body : GoGen W c Unit} {s s' : GenState (functionGenerator W c)}
    {u : Unit} (h : block size body s = .ok (u, s'))
    (hbody : ∀ s₁ s₂ : GenState (functionGenerator W c), body s₁ = .ok ((), s₂) →
      ∃ xs, xs.length = size ∧ s₂.stack = s₁.stack ++ xs) : s'.stack = s.stack := by
  obtain ⟨_, s₁, h₁, h⟩ := bind_inv h
  obtain ⟨_, s₂, h₂, h₃⟩ := bind_inv h
  have hs₁ : s₁.stack = s.stack := by
    unfold pushBlock at h₁
    cases h₁
    rfl
  obtain ⟨xs, hlen, hs₂⟩ := hbody s₁ s₂ h₂
  unfold finishBlock at h₃
  split at h₃
  · split at h₃
    · cases h₃
    · cases h₃
      show s₂.stack.take (s₂.stack.length - size) = _
      rw [hs₂, hs₁, List.length_append, hlen, Nat.add_sub_cancel, List.take_left]
  · cases h₃

/-! ## Reading -/

/-- `g` leaves one more operand on the stack, and it loads something iff `p` holds. -/
def Pushes (p : Prop) (g : GoGen W c Unit) : Prop :=
  ∀ s s', g s = .ok ((), s') → ∃ x : Operand, s'.stack = s.stack ++ [x] ∧ (x ≠ 0 ↔ p)

theorem Pushes.congr {p q : Prop} {g : GoGen W c Unit} (h : Pushes p g) (hpq : p ↔ q) :
    Pushes q g := by
  intro s s' hg
  obtain ⟨x, hx, hp⟩ := h s s' hg
  exact ⟨x, hx, hp.trans hpq⟩

theorem Pushes.panic {p : Prop} {e : Panic} : Pushes (W := W) (c := c) p (Generator.panic e) := by
  intro s s' h
  cases h

/-- A word is loaded and wrapped. -/
theorem pushes_word {i : Instruction} (hi : i.loads) {lift : GoGen W c Unit}
    (hlift : ∀ s s' : GenState (functionGenerator W c), ∀ base, lift s = .ok ((), s') →
      s.stack = base ++ [1] → s'.stack = base ++ [1]) :
    Pushes True (emitAndLift W lift (0 : Nat) i : GoGen W c Unit) := by
  intro s s' h
  obtain ⟨_, s₁, h₁, h⟩ := bind_inv h
  obtain ⟨_, s₂, h₂, h₃⟩ := bind_inv h
  have hs₂ := (yields_load hi).emit h₂ (push_inv h₁)
  exact ⟨1, hlift s₂ s' s.stack h₃ hs₂, by simp⟩

/-- A pointer and a length are loaded, and used up in a statement. -/
theorem pushes_pair {ty : Ty} {offset : ArchitectureSize} {lift : GoGen W c Unit}
    (hlift : ∀ s s' : GenState (functionGenerator W c), ∀ base, lift s = .ok ((), s') →
      s.stack = base ++ [1, 1] → s'.stack = base ++ [0]) :
    Pushes False (readListFromMemory W ty lift (0 : Nat) offset : GoGen W c Unit) := by
  intro s s' h
  obtain ⟨_, s₁, h₁, h⟩ := bind_inv h
  obtain ⟨_, s₂, h₂, h⟩ := bind_inv h
  obtain ⟨_, s₃, h₃, h⟩ := bind_inv h
  obtain ⟨_, s₄, h₄, h₅⟩ := bind_inv h
  have hs₂ : s₂.stack = s.stack ++ [1] := (yields_load rfl).emit h₂ (push_inv h₁)
  have hs₃ : s₃.stack = (s.stack ++ [1]) ++ [0] := (push_inv h₃).trans (by rw [hs₂])
  have hs₄ : s₄.stack = (s.stack ++ [1]) ++ [1] := (yields_load rfl).emit h₄ hs₃
  refine ⟨0, hlift s₄ s' s.stack h₅ (by rw [hs₄, List.append_assoc]; rfl), by simp⟩

/-- The field emitters push one operand each. -/
theorem forEachField_pushes {members : List (MemMember (functionGenerator W c))}
    {ps : List Prop} {offset : ArchitectureSize}
    (hW : (W.fieldOffsets (members.map (·.1))).length = members.length)
    (h : List.Forall₂ (fun m p => ∀ o, Pushes p (m.2 (0 : Nat) o)) members ps)
    {s s' : GenState (functionGenerator W c)}
    (hrun : forEachField W members (0 : Nat) offset s = .ok ((), s')) :
    ∃ xs : List Operand, s'.stack = s.stack ++ xs ∧
      List.Forall₂ (fun (x : Operand) (p : Prop) => x ≠ 0 ↔ p) xs ps := by
  unfold forEachField at hrun
  rw [← List.length_map (·.1)] at hW
  generalize (W.fieldOffsets (members.map (·.1))).map (·.1) = offsets at hrun hW
  induction h generalizing offsets s with
  | nil =>
    rw [List.zip_nil_right] at hrun
    cases hrun
    exact ⟨[], (List.append_nil _).symm, .nil⟩
  | @cons m p members ps hm _ ih =>
    cases offsets with
    | nil => cases hW
    | cons o offsets =>
      obtain ⟨_, s₁, h₁, h₂⟩ := bind_inv hrun
      obtain ⟨x, hx, hp⟩ := hm _ s s₁ h₁
      obtain ⟨xs, hxs, hps⟩ := ih offsets h₂ (Nat.succ.inj hW)
      exact ⟨x :: xs, by rw [hxs, hx, List.append_assoc]; rfl, .cons hp hps⟩

theorem sum_ne_zero_iff {xs : List Operand} {types : List Ty}
    (h : List.Forall₂ (fun x t => x ≠ 0 ↔ Ty.Residual t) xs types) :
    xs.sum ≠ 0 ↔ ∃ t ∈ types, t.Residual := by
  induction h with
  | nil => simp
  | @cons x t xs types hx _ ih =>
    rw [List.sum_cons, List.exists_mem_cons_iff, ← hx, ← ih, Ne, Nat.add_eq_zero_iff]
    exact not_and_or

/-- A value is put together from one operand for each of its fields. -/
theorem yields_liftFields {ty : Ty} {types : List Ty} {i : Instruction} (h : FieldsLift ty types i)
    {xs : List Operand} (hlen : xs.length = types.length) : Yields W c i xs [xs.sum] := by
  cases h with
  | record => exact yields_fields (.inl ⟨_, _, _, rfl, hlen.trans (List.length_map _)⟩)
  | tuple => exact yields_fields (.inr ⟨_, _, rfl, hlen⟩)

/-- A step that does not touch the stack keeps what holds of it. -/
theorem keeps_of_stack {j k : Nat} {g : GoGen W c Unit}
    (h : ∀ s s', g s = .ok ((), s') → s'.stack = s.stack) :
    Keeps (fun _ _ => True) (FineOperand False) (fun _ => True) j k g := by
  intro s x s' n l hg _ hstack
  rw [h s s' hg]
  exact ⟨trivial, hstack, trivial⟩

theorem loadIntrepr_stack {offset : ArchitectureSize} {repr : IntRepr} {base : List Operand}
    {op : Operand} {s s' : GenState (functionGenerator W c)} {u : Unit}
    (h : (loadIntrepr W offset repr : GoGen W c Unit) s = .ok (u, s'))
    (hs : s.stack = base ++ [op]) : s'.stack = base ++ [op + 1] := by
  cases repr <;> exact (yields_load rfl).emit h hs

theorem yields_flagsLift {flags : List String} {name : String} {id : TypeId} :
    Yields W c (.flagsLift flags name id) (List.replicate (W.flagsRepr flags.length).count 1)
      [1] := by
  refine ⟨List.length_replicate, fun blocks stmts rs hr => ?_⟩
  change flagsLift _ _ = _ at hr
  cases hlast : (List.replicate (W.flagsRepr flags.length).count 1).getLast? with
  | none => unfold flagsLift at hr; rw [hlast] at hr; cases hr
  | some value =>
    obtain rfl : value = 1 := List.eq_of_mem_replicate (List.mem_of_getLast? hlast)
    unfold flagsLift at hr
    rw [hlast] at hr
    split at hr
    all_goals first
      | (cases hr; done)
      | (next hv _ => cases hr; rw [Option.some.inj hv])

theorem forM_stack {ι : Type} {xs : List ι} {f : ι → GoGen W c PUnit}
    {s s' : GenState (functionGenerator W c)} {u : PUnit} (h : xs.forM f s = .ok (u, s'))
    (hf : ∀ x ∈ xs, ∀ r r' : GenState (functionGenerator W c), f x r = .ok ((), r') →
      r'.stack = r.stack) : s'.stack = s.stack := by
  induction xs generalizing s with
  | nil => cases h; rfl
  | cons x xs ih =>
    obtain ⟨_, s₁, h₁, h₂⟩ := bind_inv h
    rw [ih h₂ fun y hy => hf y (List.mem_cons_of_mem _ hy), hf x List.mem_cons_self s s₁ h₁]

theorem loadFlags_stack {repr : FlagsRepr} {offset : ArchitectureSize}
    {s s' : GenState (functionGenerator W c)} {u : Unit}
    (h : (loadFlags W repr (0 : Nat) offset : GoGen W c Unit) s = .ok (u, s')) :
    s'.stack = s.stack ++ List.replicate repr.count 1 := by
  have hloop : ∀ (xs : List Nat) (s s' : GenState (functionGenerator W c)) (u : PUnit),
      (xs.forM fun i => (do push (0 : Nat); emit W (.i32Load (offset.addBytes (i * 4))) :
        GoGen W c PUnit)) s = .ok (u, s') →
      s'.stack = s.stack ++ List.replicate xs.length 1 := by
    intro xs
    induction xs with
    | nil =>
      intro s s' u h
      cases h
      exact (List.append_nil _).symm
    | cons x xs ih =>
      intro s s' u h
      obtain ⟨_, s₁, h₁, h₂⟩ := bind_inv h
      obtain ⟨_, r, hr₁, hr₂⟩ := bind_inv h₁
      have hs₁ := (yields_load rfl).emit hr₂ (push_inv hr₁)
      rw [ih s₁ s' u h₂, hs₁, List.append_assoc]
      rfl
  cases repr with
  | u8 =>
    obtain ⟨_, s₁, h₁, h₂⟩ := bind_inv h
    exact loadIntrepr_stack h₂ (push_inv h₁)
  | u16 =>
    obtain ⟨_, s₁, h₁, h₂⟩ := bind_inv h
    exact loadIntrepr_stack h₂ (push_inv h₁)
  | u32 n =>
    rw [hloop _ s s' u h, List.length_range]
    rfl

theorem yields_iterBasePointer : Yields W c .iterBasePointer [] [0] :=
  ⟨rfl, fun _ _ _ hr => by cases hr; rfl⟩

theorem orPanic_stack {α : Type} {p : Panic} {o : Option α} {x : α}
    {s s' : GenState (functionGenerator W c)} (h : (orPanic p o : GoGen W c α) s = .ok (x, s')) :
    s'.stack = s.stack := by
  cases o <;> cases h
  rfl

/-- The body that reads one element leaves the element. -/
theorem readIter_stack {p : Prop} {read : Operand → GoGen W c Unit} (hread : Pushes p (read 0))
    {s s' : GenState (functionGenerator W c)}
    (h : (do emit W .iterBasePointer; let addr ← pop; read addr : GoGen W c Unit) s =
      .ok ((), s')) : ∃ xs : List Operand, xs.length = 1 ∧ s'.stack = s.stack ++ xs := by
  obtain ⟨_, s₁, h₁, h⟩ := bind_inv h
  obtain ⟨addr, s₂, h₂, h₃⟩ := bind_inv h
  obtain ⟨rfl, hs₂⟩ := pop_inv h₂ (yields_iterBasePointer.emit h₁ (List.append_nil _).symm)
  obtain ⟨x, hx, -⟩ := hread _ _ h₃
  exact ⟨[x], rfl, by rw [hx, hs₂]⟩

theorem readEntry_stack {p q : Prop} {readKey readValue : Operand → GoGen W c Unit}
    (hkey : Pushes p (readKey 0)) (hvalue : Pushes q (readValue 0))
    {s s' : GenState (functionGenerator W c)}
    (h : (do emit W .iterBasePointer; let addr ← pop; readKey addr; readValue addr :
      GoGen W c Unit) s = .ok ((), s')) :
    ∃ xs : List Operand, xs.length = 2 ∧ s'.stack = s.stack ++ xs := by
  obtain ⟨_, s₁, h₁, h⟩ := bind_inv h
  obtain ⟨addr, s₂, h₂, h⟩ := bind_inv h
  obtain ⟨_, s₃, h₃, h₄⟩ := bind_inv h
  obtain ⟨rfl, hs₂⟩ := pop_inv h₂ (yields_iterBasePointer.emit h₁ (List.append_nil _).symm)
  obtain ⟨x, hx, -⟩ := hkey _ _ h₃
  obtain ⟨y, hy, -⟩ := hvalue _ _ h₄
  exact ⟨[x, y], rfl, by rw [hy, hx, hs₂, List.append_assoc]; rfl⟩

/-- What is read is one operand, and it loads something iff the type is residual. -/
theorem readFromMemory_pushes (hW : ∀ types, (W.fieldOffsets types).map (·.2) = types) (ty : Ty) :
    ∀ offset, Pushes ty.Residual (readFromMemory W ty (0 : Nat) offset : GoGen W c Unit) := by
  induction ty using Ty.ind with
  | prim q =>
    intro offset
    rw [readFromMemory]
    refine (pushes_word (by cases q <;> rfl) fun s s' base h hs => ?_).congr (by simp [Ty.Residual.prim])
    rw [lift] at h
    exact (yields_unary (by cases q <;> rfl) (by cases q <;> exact fun _ => rfl)).emit h hs
  | string =>
    intro offset
    rw [readFromMemory]
    refine (pushes_pair fun s s' base h hs => ?_).congr ⟨False.elim, fun h => ?_⟩
    · rw [lift] at h
      exact (yields_view (.inl rfl)).emit h hs
    · cases h with
      | fields hf _ _ => cases hf
  | errorContext =>
    intro offset s s' h
    rw [readFromMemory] at h
    obtain ⟨_, s₁, h₁, h⟩ := bind_inv h
    obtain ⟨_, s₂, h₂, h₃⟩ := bind_inv h
    rw [lift] at h₃
    have hs₂ := (yields_load rfl).emit h₂ (push_inv h₁)
    obtain ⟨_, _, _, hr, -⟩ := emit_stack h₃ hs₂ rfl
    cases hr
  | type id t ih =>
    intro offset
    rw [readFromMemory]
    exact (ih offset).congr Ty.residual_type.symm
  | list id t ih =>
    intro offset
    rw [readFromMemory]
    refine (pushes_pair fun s s' base h hs => ?_).congr ⟨False.elim, fun h => ?_⟩
    · rw [lift] at h
      obtain ⟨canonical, s₁, h₁, h⟩ := bind_inv h
      cases h₁
      split at h
      · exact (yields_view (.inr ⟨t, id, rfl⟩)).emit h hs
      · obtain ⟨_, s₂, h₂, h₃⟩ := bind_inv h
        have hs₂ := (block_stack h₂ fun s₁ s₂ h => readIter_stack (fun s s' h => ih _ s s' h) h).trans hs
        exact (yields_liftLoop (.inl ⟨t, id, rfl⟩)).emit h₃ hs₂
    · cases h with
      | fields hf _ _ => cases hf
  | map id k t ihk iht =>
    intro offset
    rw [readFromMemory]
    refine (pushes_pair fun s s' base h hs => ?_).congr ⟨False.elim, fun h => ?_⟩
    · rw [lift] at h
      obtain ⟨offset', s₁, h₁, h⟩ := bind_inv h
      have hs₁ : s₁.stack = s.stack := orPanic_stack h₁
      obtain ⟨_, s₂, h₂, h₃⟩ := bind_inv h
      have hs₂ : s₂.stack = s₁.stack := block_stack h₂ fun r r' h =>
        readEntry_stack (fun s s' h => ihk _ s s' h) (fun s s' h => iht _ s s' h) h
      exact (yields_liftLoop (.inr ⟨k, t, id, rfl⟩)).emit h₃ (hs₂.trans (hs₁.trans hs))
    · cases h with
      | fields hf _ _ => cases hf
  | fixedLengthList id t n ih =>
    intro offset s s' h
    rw [readFromMemory] at h
    obtain ⟨_, s₁, h₁, h⟩ := bind_inv h
    obtain ⟨_, s₂, h₂, h₃⟩ := bind_inv h
    obtain ⟨_, _, _, hr, -⟩ := emit_stack h₃ (push_inv h₂) rfl
    cases hr
  | fields ty types hf ih =>
    intro offset s s' h
    obtain ⟨i, hi, -, hread⟩ := lift_fields_eq (W := W) (B := functionGenerator W c) hf
    rw [hread] at h
    obtain ⟨_, s₁, h₁, h₂⟩ := bind_inv h
    have hmembers : List.Forall₂ (fun (m : MemMember (functionGenerator W c)) p =>
        ∀ o, Pushes p (m.2 (0 : Nat) o))
        (types.map fun t => (t, readFromMemory W t)) (types.map Ty.Residual) := by
      rw [List.forall₂_map_left_iff, List.forall₂_map_right_iff, List.forall₂_same]
      exact ih
    obtain ⟨xs, hxs, hps⟩ := forEachField_pushes (by
      rw [List.map_map, List.length_map, ← List.length_map (·.2), hW, List.length_map]) hmembers h₁
    rw [List.forall₂_map_right_iff] at hps
    exact ⟨xs.sum, (yields_liftFields hi hps.length_eq).emit h₂ hxs,
      (sum_ne_zero_iff hps).trans (Ty.residual_fields hf).symm⟩
  | flags id name names =>
    intro offset s s' h
    rw [readFromMemory] at h
    obtain ⟨_, s₁, h₁, h₂⟩ := bind_inv h
    rw [lift] at h₂
    exact ⟨1, yields_flagsLift.emit h₂ (loadFlags_stack h₁), by simp [Ty.Residual.flags]⟩
  | arms ty arms ha ih =>
    intro offset s s' h
    obtain ⟨i, hi, -, hread⟩ := lift_arms_eq (W := W) (B := functionGenerator W c) ha
    rw [hread] at h
    obtain ⟨_, s₁, h₁, h₂⟩ := bind_inv h
    have hs₁ : s₁.stack = s.stack ++ [1] := by
      obtain ⟨_, r₁, hr₁, h₁⟩ := bind_inv h₁
      obtain ⟨_, r₂, hr₂, h₁⟩ := bind_inv h₁
      rw [← loadIntrepr_stack hr₂ (push_inv hr₁)]
      refine forM_stack h₁ fun arm harm r r' hr => block_stack hr fun q q' hq => ?_
      obtain ⟨o, ho, rfl⟩ := List.mem_map.mp harm
      cases o with
      | none => cases hq; exact ⟨[], rfl, (List.append_nil _).symm⟩
      | some t =>
        obtain ⟨x, hx, -⟩ := ih t ho _ q q' hq
        exact ⟨[x], rfl, hx⟩
    exact ⟨0, (yields_liftCases hi.lifting.1).emit h₂ hs₁, by simp [Ty.not_residual_arms ha]⟩
  | enum id name cases' =>
    intro offset s s' h
    rw [readFromMemory] at h
    obtain ⟨_, s₁, h₁, h⟩ := bind_inv h
    obtain ⟨_, s₂, h₂, h₃⟩ := bind_inv h
    rw [lift] at h₃
    have hs₂ := loadIntrepr_stack h₂ (push_inv h₁)
    refine ⟨1, (yields_unary rfl fun _ => rfl).emit h₃ hs₂, by simp [Ty.Residual.enum]⟩
  | handle id h name =>
    intro offset
    rw [readFromMemory]
    refine (pushes_word rfl fun s s' base h hs => ?_).congr (by simp [Ty.Residual.handle])
    rw [lift] at h
    exact (yields_unary rfl fun _ => rfl).emit h hs
  | future id t =>
    intro offset
    rw [readFromMemory]
    refine (pushes_word rfl fun s s' base h hs => ?_).congr (by simp [Ty.Residual.future])
    rw [lift] at h
    exact (yields_unary rfl fun _ => rfl).emit h hs
  | stream id t =>
    intro offset
    rw [readFromMemory]
    refine (pushes_word rfl fun s s' base h hs => ?_).congr (by simp [Ty.Residual.stream])
    rw [lift] at h
    exact (yields_unary rfl fun _ => rfl).emit h hs
  | resource id =>
    intro offset
    rw [readFromMemory]
    exact .panic
  | unknown id =>
    intro offset
    rw [readFromMemory]
    exact .panic

/-! ## Lifting -/

/-- Lifting instructions other than loads hand back nothing that their operands do not load. -/
theorem render_lifting {i : Instruction} (hi : i.lifting) (hl : i.loads = false)
    {ops results : List Operand} {blocks : List Block} {stmts : Text Act}
    (hops : ∀ o ∈ ops, FineOperand False o) (h : render W c i ops blocks = .ok (stmts, results)) :
    ∀ o ∈ results, FineOperand False o := by
  have hzero : results = [0] → ∀ o ∈ results, FineOperand False o := by
    rintro rfl
    exact fineOperand_replicate 1
  cases i
  case listLift | mapLift => exact hzero (liftLoop_results h)
  case variantLift | optionLift | resultLift => exact hzero (liftCases_results h)
  case iterBasePointer => cases h; exact fineOperand_replicate 1
  case flagsLift => exact FineRendered.results (flagsLift_fine hops _) h
  case tupleLift => cases h; exact List.forall_mem_singleton.mpr (sum_fine hops)
  case recordLift =>
    cases h
    exact List.forall_mem_singleton.mpr (sum_fine fun o ho => hops o (List.mem_of_mem_take ho))
  case bitcasts =>
    cases h
    intro o ho
    obtain ⟨⟨b, o⟩, hx, rfl⟩ := List.mem_map.mp ho
    exact hops o (List.of_mem_zip hx).2
  all_goals first
    | (cases hi; done)
    | (cases hl; done)
    | cases h
    | exact FineRendered.results (unary_fine hops) h
    | exact FineRendered.results (viewInPlace_fine hops) h

theorem render_plumbing {i : Instruction} (hi : plumbing i) {ops results : List Operand}
    {blocks : List Block} {stmts : Text Act} (h : render W c i ops blocks = .ok (stmts, results)) :
    ∀ o ∈ results, FineOperand False o := by
  cases i
  case getArg nth =>
    change ite (nth < c.paramNames) _ _ = _ at h
    split at h <;> cases h
    exact fineOperand_replicate 1
  case guestDeallocate => cases h; nofun
  case flush => cases h; exact fineOperand_replicate _
  all_goals cases hi

/-- What no load stands in stays so, as long as no instruction loads. -/
theorem functionGenerator_unloaded : Stable (functionGenerator W c)
    (fun i => i.lifting ∧ i.loads = false ∨ plumbing i) (fun _ _ => True) (FineOperand False) where
  emit {i ops s rs s' n l} hi hops hemit _ := by
    refine ⟨trivial, ?_⟩
    change (if _ then _ else _) = _ at hemit
    split at hemit
    swap
    · cases hemit
    cases hr : render W c i ops (s.blocks.drop (s.blocks.length - blocksTaken i)) with
    | error e => rw [hr] at hemit; cases hemit
    | ok r =>
      rw [hr] at hemit
      cases hemit
      rcases hi with ⟨hi, hl⟩ | hi
      · exact render_lifting hi hl hops hr
      · exact render_plumbing hi hr
  returnPointer {size align s x s' l} hret _ := by
    change (if _ then _ else _) = _ at hret
    split at hret <;> cases hret <;> exact ⟨trivial, fineOperand_zero⟩
  pushBlock _ _ := trivial
  finishBlock _ _ _ := trivial

/-- Lifting operands without loads gives an operand without loads: what is loaded for the
elements of a list does not leave their block. -/
theorem lift_unloaded (hW : ∀ types, (W.fieldOffsets types).map (·.2) = types) (ty : Ty) :
    Steady (fun _ _ => True) (FineOperand False) (lift W ty : GoGen W c Unit) := by
  have hI := functionGenerator_unloaded (W := W) (c := c)
  induction ty using Ty.ind with
  | prim q =>
    rw [lift]
    cases q <;> exact Keeps.emit hI (.inl ⟨rfl, rfl⟩) rfl
  | type id t ih => rw [lift]; exact ih
  | list id t ih =>
    rw [lift]
    refine (Keeps.pure trivial).and_then fun canonical =>
      Keeps.ite (Keeps.emit hI (.inl ⟨rfl, rfl⟩) rfl) ?_
    refine Keeps.and_then (k := 1) ?_ fun _ => Keeps.emit hI (.inl ⟨rfl, rfl⟩) rfl
    refine keeps_of_stack fun s s' h => block_stack h fun r r' hr => ?_
    exact readIter_stack (readFromMemory_pushes hW t default) hr
  | map id k t ihk iht =>
    rw [lift]
    refine (Keeps.valueOffset k t).and_then fun offset => ?_
    refine Keeps.and_then (k := 1) ?_ fun _ => Keeps.emit hI (.inl ⟨rfl, rfl⟩) rfl
    refine keeps_of_stack fun s s' h => block_stack h fun r r' hr => ?_
    exact readEntry_stack (readFromMemory_pushes hW k default)
      (readFromMemory_pushes hW t offset) hr
  | fixedLengthList id t n ih =>
    rw [lift]
    exact (Keeps.flatTypes t).and_then fun _ => (Keeps.drain _).bind fun _ hargs =>
      (Keeps.liftEach _ ih _ hargs).and_then fun _ => Keeps.emit hI (.inl ⟨rfl, rfl⟩) rfl
  | fields ty types hf ih =>
    obtain ⟨i, hfields, hlift, -⟩ := lift_fields_eq (W := W) (B := functionGenerator W c) hf
    obtain ⟨hi, hloads, -, hblocks⟩ := hfields.lifting
    rw [hlift]
    refine (Keeps.flatForEachRecordType _ fun m hm => ?_).and_then fun _ =>
      Keeps.emit hI (.inl ⟨hi, hloads⟩) hblocks
    obtain ⟨t, ht, rfl⟩ := List.mem_map.mp hm
    exact ih t ht
  | arms ty arms ha ih =>
    obtain ⟨i, harms, hlift, -⟩ := lift_arms_eq (W := W) (B := functionGenerator W c) ha
    obtain ⟨hi, -, hblocks⟩ := harms.lifting
    have hloop := Keeps.flatForEachVariantArm (W := W) hI (fun _ => .inl ⟨rfl, rfl⟩) ty true
      (arms_members fun t ht => ih t ht)
    rw [List.length_map] at hloop
    rw [hlift]
    refine hloop.and_then fun _ => Keeps.emit hI (.inl ⟨Instruction.lifting_of_liftsArms hi, ?_⟩)
      hblocks
    cases harms <;> rfl
  | string | errorContext | flags | enum | handle | future | stream =>
    rw [lift]
    exact Keeps.emit hI (.inl ⟨rfl, rfl⟩) rfl
  | resource | unknown => rw [lift]; exact Keeps.panic _

end Go

end WitBindgen
