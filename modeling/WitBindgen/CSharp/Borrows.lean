import WitBindgen.CSharp.ExportText
import WitBindgen.Wit.Canonical
import Mathlib.Data.List.Count
import Mathlib.Data.List.Induction

/-!
# Borrows of imported resources in C# exports

The host traps when an export returns while it still has a borrow. Each place where a borrow
of an imported resource is lifted has one variable, declared outside of the whole method,
and after the call each of these variables is disposed of. A place in the body of a loop is
passed once for every element, and its variable has the last of their handles then. An async
export disposes inside another method, where the variables are not declared.
-/

namespace WitBindgen.CSharp.FunctionBindgen

open Trace Generator

/-! ## Types with borrows -/

/-- A borrow of an imported resource is reached from the type. -/
def BorrowsImported (R : Resources) (ty : Ty) : Prop :=
  ∃ id h name, ty.HasHandle id h name ∧ h.isOwn = false ∧ R.imports h

/-- `resource_drops` is `D`. -/
def Drops (D : List Local) (_ : List Nat) (s : State) : Prop := s.resourceDrops = D

/-- `resource_drops` has something in it. -/
def Marked (_ : List Nat) (s : State) : Prop := s.resourceDrops ≠ []

section
variable {W : WitParser} {c : Config} {α β : Type} {ty : Ty}

theorem functionBindgen_unmarked (c : Config) (D : List Local) :
    Stable (functionBindgen c)
      (fun i => quiet i ∧ ∀ h name id, i = .handleLift h name id → h.isOwn = false →
        ¬c.resources.imports h)
      (Drops D) (fun _ => True) where
  emit {i ops s rs s' n l} hi _ hemit hs := by
    obtain ⟨r, -, hr, rfl, rfl⟩ := emit_state hemit
    refine ⟨?_, fun _ _ => trivial⟩
    rcases render_drops hi.1 hr with hd | ⟨h, name, id, rfl, hown, himport, -⟩
    · show s.resourceDrops ++ r.drops = D
      rw [hd, List.append_nil]
      exact hs
    · exact absurd himport (hi.2 h name id rfl hown)
  returnPointer hret hs := by cases hret; exact ⟨hs, trivial⟩
  pushBlock hpush hs := by cases hpush; exact hs
  finishBlock {_ s _ _ _} _ hfinish hs := by
    dsimp only [functionBindgen] at hfinish
    split at hfinish <;> cases hfinish
    exact hs

/-- Lifting a type without borrows of imported resources puts nothing on `resource_drops`. -/
theorem lift_unmarked (D : List Local) (h : ¬BorrowsImported c.resources ty) :
    Steady (Drops D) (fun _ => True)
        (lift W ty : Gen (functionBindgen c) Unit) ∧
      ∀ addr offset, True → Steady (Drops D) (fun _ => True)
        (readFromMemory W ty addr offset : Gen (functionBindgen c) Unit) :=
  Keeps.lift_and_read_handles (functionBindgen_unmarked c D) ty fun _ hi _ hh =>
    ⟨quiet_of_lifting hi, fun hd name id heq hown himport =>
      h ⟨id, hd, name, hh hd name id heq, hown, himport⟩⟩

/-! ### Places with borrows -/

/-- `resource_drops` has something in it afterwards. -/
def Marks (g : Gen (functionBindgen c) α) : Prop :=
  ∀ s x s', g s = .ok (x, s') → s'.bindgen.resourceDrops ≠ []

/-- And if it had before. -/
def StaysMarked (g : Gen (functionBindgen c) α) : Prop :=
  ∀ s x s', g s = .ok (x, s') → s.bindgen.resourceDrops ≠ [] → s'.bindgen.resourceDrops ≠ []

theorem functionBindgen_marked (c : Config) :
    Stable (functionBindgen c) (fun i => quiet i) Marked (fun _ => True) where
  emit {_ _ s _ _ _ _} hi _ hemit hs := by
    obtain ⟨r, -, hr, rfl, rfl⟩ := emit_state hemit
    exact ⟨fun hnil => hs (List.append_eq_nil_iff.mp hnil).1, fun _ _ => trivial⟩
  returnPointer hret hs := by cases hret; exact ⟨hs, trivial⟩
  pushBlock hpush hs := by cases hpush; exact hs
  finishBlock {_ s _ _ _} _ hfinish hs := by
    dsimp only [functionBindgen] at hfinish
    split at hfinish <;> cases hfinish
    exact hs

theorem StaysMarked.of_keeps {g : Gen (functionBindgen c) α} {k : Nat} {P : α → Prop}
    (h : Keeps Marked (fun _ => True) P 0 k g) : StaysMarked g :=
  fun s x s' hg hs => (h s x s' 0 [] hg hs fun _ _ => trivial).1

theorem staysMarked_emit {i : Instruction} (hi : quiet i) :
    StaysMarked (emit W i : Gen (functionBindgen c) Unit) := by
  intro s x s' hrun hs
  obtain ⟨below, ops, rs, -, -, hemit, -, -⟩ := emit_inv hrun
  exact ((functionBindgen_marked c).emit (n := 0) (l := []) hi (fun _ _ => trivial) hemit hs).1

theorem staysMarked_lift (ty : Ty) : StaysMarked (lift W ty : Gen (functionBindgen c) Unit) ∧
    ∀ addr offset, StaysMarked (readFromMemory W ty addr offset : Gen (functionBindgen c) Unit) := by
  have h := Keeps.lift_and_read (W := W) (functionBindgen_marked c) ty fun i hi _ =>
    quiet_of_lifting hi
  exact ⟨.of_keeps h.1, fun addr offset => .of_keeps (h.2 addr offset trivial)⟩

theorem Marks.right {g : Gen (functionBindgen c) α} {f : α → Gen (functionBindgen c) β}
    (h : ∀ x, Marks (f x)) : Marks (g >>= f) := by
  intro s y s' hrun
  obtain ⟨x, s₁, -, h₂⟩ := bind_inv hrun
  exact h x s₁ y s' h₂

theorem Marks.left {g : Gen (functionBindgen c) α} {f : α → Gen (functionBindgen c) β}
    (hg : Marks g) (h : ∀ x, StaysMarked (f x)) : Marks (g >>= f) := by
  intro s y s' hrun
  obtain ⟨x, s₁, h₁, h₂⟩ := bind_inv hrun
  exact h x s₁ y s' h₂ (hg s x s₁ h₁)

theorem StaysMarked.bind {g : Gen (functionBindgen c) α} {f : α → Gen (functionBindgen c) β}
    (hg : StaysMarked g) (h : ∀ x, StaysMarked (f x)) : StaysMarked (g >>= f) := by
  intro s y s' hrun hs
  obtain ⟨x, s₁, h₁, h₂⟩ := bind_inv hrun
  exact h x s₁ y s' h₂ (hg s x s₁ h₁ hs)

theorem StaysMarked.done : StaysMarked (pure () : Gen (functionBindgen c) Unit) := by
  rintro s x s' ⟨⟩ hs
  exact hs

theorem StaysMarked.forM {ι : Type} {xs : List ι} {f : ι → Gen (functionBindgen c) PUnit}
    (h : ∀ x ∈ xs, StaysMarked (f x)) : StaysMarked (xs.forM f) := by
  induction xs with
  | nil => exact .done
  | cons x xs ih =>
    exact (h x List.mem_cons_self).bind fun _ => ih fun y hy => h y (List.mem_cons_of_mem _ hy)

theorem Marks.forM {ι : Type} {xs : List ι} {f : ι → Gen (functionBindgen c) PUnit} {x : ι}
    (hx : x ∈ xs) (hf : Marks (f x)) (h : ∀ y ∈ xs, StaysMarked (f y)) : Marks (xs.forM f) := by
  induction xs with
  | nil => cases hx
  | cons y xs ih =>
    have hrest := fun z hz => h z (List.mem_cons_of_mem y hz)
    rcases List.mem_cons.mp hx with rfl | hx
    · exact hf.left fun _ => .forM hrest
    · exact Marks.right fun _ => ih hx hrest

theorem staysMarked_finishBlock (size : Nat) :
    StaysMarked (finishBlock size : Gen (functionBindgen c) Unit) := by
  intro s x s' hrun hs
  unfold finishBlock at hrun
  split at hrun
  · split at hrun
    · cases hrun
    · next bindgen hfinish =>
        cases hrun
        exact (functionBindgen_marked c).finishBlock (n := 0) (l := []) (fun _ _ => trivial) hfinish hs
  · cases hrun

theorem Marks.block {size : Nat} {body : Gen (functionBindgen c) Unit} (h : Marks body) :
    Marks (block size body) := Marks.right fun _ => h.left fun _ => staysMarked_finishBlock size

theorem staysMarked_block {size : Nat} {body : Gen (functionBindgen c) Unit}
    (h : StaysMarked body) : StaysMarked (block size body) := by
  have hI := functionBindgen_marked c
  refine StaysMarked.bind ?_ fun _ => h.bind fun _ => ?_
  · intro s x s' hrun hs
    unfold pushBlock at hrun
    split at hrun <;> cases hrun
    next bindgen hpush => exact hI.pushBlock (n := 0) (l := []) hpush hs
  · exact staysMarked_finishBlock size

theorem not_isPrimitive {id : TypeId} {h : Handle} {name : String} (hty : ty.HasHandle id h name) :
    isPrimitive ty = false := by
  cases hty with
  | fields hf _ _ => cases ty <;> first | rfl | cases hf
  | arms ha _ _ => cases ty <;> first | rfl | cases ha
  | _ => rfl

theorem marks_panic {i : Instruction} {e : Panic}
    (h : ∀ ops blocks scope s, render c i ops blocks scope s = .error e) :
    Marks (emit W i : Gen (functionBindgen c) Unit) := by
  intro s x s' hrun
  obtain ⟨below, ops, rs, -, -, hemit, -, -⟩ := emit_inv hrun
  obtain ⟨r, -, hr, -, -⟩ := emit_state hemit
  rw [h] at hr
  cases hr

theorem staysMarked_records {members : List (Member (functionBindgen c))}
    (h : ∀ m ∈ members, StaysMarked m.2) (args : List Operand) :
    StaysMarked (forEachRecordType W members args : Gen (functionBindgen c) Unit) := by
  induction members generalizing args with
  | nil => exact .done
  | cons m members ih =>
    refine StaysMarked.bind (.of_keeps (Keeps.flatTypes m.1)) fun temp => ?_
    refine StaysMarked.bind (.of_keeps (Keeps.slice temp.length fun _ _ => trivial)) fun ys => ?_
    refine StaysMarked.bind (.of_keeps (Keeps.extend fun _ _ => trivial)) fun _ => ?_
    exact (h m List.mem_cons_self).bind fun _ => ih (fun k hk => h k (List.mem_cons_of_mem _ hk)) _

theorem marks_records {container : Ty} {members : List (Member (functionBindgen c))}
    {m : Member (functionBindgen c)} (hm : m ∈ members) (hmarks : Marks m.2)
    (h : ∀ m ∈ members, StaysMarked m.2) : Marks (flatForEachRecordType W container members) := by
  refine .right fun temp => .right fun args => ?_
  induction members generalizing args with
  | nil => cases hm
  | cons k members ih =>
    refine .right fun temp => .right fun ys => .right fun _ => ?_
    have hrest := fun z hz => h z (List.mem_cons_of_mem k hz)
    rcases List.mem_cons.mp hm with rfl | hm
    · exact hmarks.left fun _ => staysMarked_records hrest _
    · exact .right fun _ => ih hm hrest _

theorem marks_fields (hW : ∀ types, (W.fieldOffsets types).map (·.2) = types)
    {members : List (MemMember (functionBindgen c))} {m : MemMember (functionBindgen c)}
    (hm : m ∈ members) (addr : Operand) (hmarks : ∀ offset, Marks (m.2 addr offset))
    (h : ∀ m ∈ members, ∀ offset, StaysMarked (m.2 addr offset)) (offset : ArchitectureSize) :
    Marks (forEachField W members addr offset) := by
  have hoffsets := congrArg List.length (hW (members.map (·.1)))
  rw [List.length_map, List.length_map] at hoffsets
  obtain ⟨n, hn, rfl⟩ := List.mem_iff_getElem.mp hm
  have hlen : n < ((W.fieldOffsets (members.map (·.1))).map (·.1)).length := by
    rw [List.length_map, hoffsets]; exact hn
  have hmem : (((W.fieldOffsets (members.map (·.1))).map (·.1))[n], members[n]) ∈
      ((W.fieldOffsets (members.map (·.1))).map (·.1)).zip members :=
    List.mem_iff_getElem.mpr ⟨n, by rw [List.length_zip]; exact Nat.lt_min.mpr ⟨hlen, hn⟩,
      List.getElem_zip⟩
  exact Marks.forM hmem (hmarks _) fun x hx => h x.2 (List.of_mem_zip hx).2 _

theorem staysMarked_armBlocks {arms : List (Option (Member (functionBindgen c)))}
    (h : ∀ m, some m ∈ arms → StaysMarked m.2) (params : List WasmType) (inputs : List Operand) :
    ∀ arm ∈ arms, StaysMarked (flatForVariantArm W params true inputs arm) := by
  intro arm harm
  refine staysMarked_block ?_
  cases arm with
  | none => exact .done
  | some m =>
    refine StaysMarked.bind (.of_keeps (Keeps.flatTypes m.1)) fun temp => ?_
    refine StaysMarked.bind (.of_keeps (Keeps.slice temp.length fun _ _ => trivial)) fun ys => ?_
    refine StaysMarked.bind (.of_keeps (Keeps.extend fun _ _ => trivial)) fun _ => ?_
    refine StaysMarked.bind (.of_keeps (Keeps.emitCasts (functionBindgen_marked c) (fun _ => rfl)
      _ _)) fun _ => h m harm

theorem marks_arms {ty : Ty} {arms : List (Option (Member (functionBindgen c)))}
    {m : Member (functionBindgen c)} (hm : some m ∈ arms) (hmarks : Marks m.2)
    (h : ∀ m, some m ∈ arms → StaysMarked m.2) : Marks (flatForEachVariantArm W ty true arms) :=
  .right fun params => .right fun inputs => Marks.forM hm
    (.block (.right fun _ => .right fun _ => .right fun _ => .right fun _ => hmarks))
    (staysMarked_armBlocks h params inputs)

theorem marks_readArms {arms : List (Option (MemMember (functionBindgen c)))}
    {m : MemMember (functionBindgen c)} (hm : some m ∈ arms) {addr : Operand}
    (hmarks : ∀ offset, Marks (m.2 addr offset))
    (h : ∀ m, some m ∈ arms → ∀ offset, StaysMarked (m.2 addr offset)) (tag : IntRepr)
    (offset : ArchitectureSize) : Marks (readVariantArmsFromMemory W offset addr tag arms) := by
  refine .right fun _ => .right fun _ => Marks.forM hm (.block (hmarks _)) fun arm harm =>
    staysMarked_block ?_
  cases arm with
  | none => exact .done
  | some m => exact h m harm _

/-- A place where a borrow of an imported resource is lifted has its variable. -/
theorem lift_marks (hW : ∀ types, (W.fieldOffsets types).map (·.2) = types) {id : TypeId} {h : Handle} {name : String} (hty : ty.HasHandle id h name)
    (hown : h.isOwn = false) (himport : c.resources.imports h) :
    Marks (lift W ty : Gen (functionBindgen c) Unit) ∧
      ∀ addr offset, Marks (readFromMemory W ty addr offset : Gen (functionBindgen c) Unit) := by
  have hpair : ∀ {ty : Ty} {addr : Operand} {offset : ArchitectureSize},
      Marks (lift W ty : Gen (functionBindgen c) Unit) →
      Marks (readListFromMemory W ty (lift W ty) addr offset : Gen (functionBindgen c) Unit) :=
    fun h => .right fun _ => .right fun _ => .right fun _ => .right fun _ => h
  induction hty with
  | handle =>
    refine flat_and_memory ?_ fun hlift addr offset => ?_
    · rw [lift]
      intro s x s' hrun hnil
      obtain ⟨below, ops, rs, -, -, hemit, -, -⟩ := emit_inv hrun
      obtain ⟨r, -, hr, -, hs'⟩ := emit_state hemit
      rw [hs'] at hnil
      have hdrops := (List.append_eq_nil_iff.mp hnil).2
      rcases handleLift_inv hr with ⟨-, -, -, ⟨hno, -⟩ | ⟨-, -, hd⟩⟩ | ⟨hexport, -⟩
      · rw [hown] at hno; cases hno
      · rw [hdrops] at hd; cases hd
      · rw [Resources.imports, hexport] at himport; cases himport
    · rw [readFromMemory]
      exact .right fun _ => .right fun _ => hlift
  | type _ ih =>
    rw [lift]
    refine ⟨ih.1, fun addr offset => ?_⟩
    rw [readFromMemory]
    exact ih.2 addr offset
  | @list i t hty ih =>
    refine flat_and_memory ?_ fun hlift addr offset => ?_
    · rw [lift]
      intro s x s' hrun
      obtain ⟨canonical, s₁, h₁, h₂⟩ := bind_inv hrun
      obtain ⟨hcanonical, -⟩ := Prod.mk.inj (Except.ok.inj h₁)
      rw [← hcanonical, show (functionBindgen c).isListCanonical t = false from not_isPrimitive hty,
        if_neg Bool.false_ne_true] at h₂
      have hblock : Marks (block 1 (do
          emit W .iterBasePointer
          let addr ← pop
          readFromMemory W t addr default) : Gen (functionBindgen c) Unit) :=
        .block (.right fun _ => .right fun addr => ih.2 addr _)
      exact (hblock.left fun _ => staysMarked_emit rfl) s₁ x s' h₂
    · rw [readFromMemory]
      exact hpair hlift
  | @key i k v _ ih =>
    refine flat_and_memory ?_ fun hlift addr offset => ?_
    · rw [lift]
      refine .right fun _ => Marks.left (.block (.right fun _ => .right fun addr => ?_))
        fun _ => staysMarked_emit rfl
      exact (ih.2 addr _).left fun _ => (staysMarked_lift v).2 addr _
    · rw [readFromMemory]
      exact hpair hlift
  | @value i k v _ ih =>
    refine flat_and_memory ?_ fun hlift addr offset => ?_
    · rw [lift]
      refine .right fun _ => Marks.left (.block (.right fun _ => .right fun addr => ?_))
        fun _ => staysMarked_emit rfl
      exact .right fun _ => ih.2 addr _
    · rw [readFromMemory]
      exact hpair hlift
  | @fixedLengthList i t n _ ih =>
    refine ⟨?_, fun addr offset => ?_⟩
    · rw [lift]
      exact .right fun _ => .right fun _ => .right fun _ => marks_panic fun _ _ _ _ => rfl
    · rw [readFromMemory]
      exact .right fun _ => .right fun _ => marks_panic fun _ _ _ _ => rfl
  | @fields ty types t hf ht _ ih =>
    obtain ⟨i, hi, hlift, hread⟩ := lift_fields_eq (W := W) (B := functionBindgen c) hf
    have hquiet : quiet i := quiet_of_lifting hi.lifting.1
    refine ⟨?_, fun addr offset => ?_⟩
    · rw [hlift]
      refine (marks_records (List.mem_map.mpr ⟨t, ht, rfl⟩) ih.1 fun m hm => ?_).left
        fun _ => staysMarked_emit hquiet
      obtain ⟨u, -, rfl⟩ := List.mem_map.mp hm
      exact (staysMarked_lift u).1
    · rw [hread]
      refine (marks_fields hW (List.mem_map.mpr ⟨t, ht, rfl⟩) addr (ih.2 addr)
        (fun m hm => ?_) offset).left fun _ => staysMarked_emit hquiet
      obtain ⟨u, -, rfl⟩ := List.mem_map.mp hm
      exact (staysMarked_lift u).2 addr
  | @arms ty arms t ha ht _ ih =>
    obtain ⟨i, hi, hlift, hread⟩ := lift_arms_eq (W := W) (B := functionBindgen c) ha
    have hquiet : quiet i := quiet_of_lifting (Instruction.lifting_of_liftsArms hi.lifting.1)
    refine ⟨?_, fun addr offset => ?_⟩
    · rw [hlift]
      refine (marks_arms (List.mem_map.mpr ⟨some t, ht, rfl⟩) ih.1 fun m hm => ?_).left
        fun _ => staysMarked_emit hquiet
      obtain ⟨o, -, hm⟩ := List.mem_map.mp hm
      cases o with
      | none => cases hm
      | some u => cases hm; exact (staysMarked_lift u).1
    · rw [hread]
      refine (marks_readArms (List.mem_map.mpr ⟨some t, ht, rfl⟩) (ih.2 addr) (fun m hm => ?_)
        _ _).left fun _ => staysMarked_emit hquiet
      obtain ⟨o, -, hm⟩ := List.mem_map.mp hm
      cases o with
      | none => cases hm
      | some u => cases hm; exact (staysMarked_lift u).2 addr

end

section
variable {W : WitParser} {p : Nat} {c : Config} {ty : Ty} {gen : Gen (functionBindgen c) Unit}
  {b b' : State} {o : Operand}

theorem argOf_unmarked (hgen : ArgOf W c ty gen) (hno : ¬BorrowsImported c.resources ty)
    (h : Puts gen b o b') : b'.resourceDrops = b.resourceDrops := by
  obtain ⟨s, s', rfl, hs, hrun, -, rfl⟩ := h
  obtain ⟨hlift, hread⟩ := lift_unmarked (W := W) s.bindgen.resourceDrops hno
  have hkeeps : Steady (Drops s.bindgen.resourceDrops) (fun _ => True) gen := by
    cases hgen with
    | core =>
      exact (Keeps.getArgs (functionBindgen_unmarked c _) (fun _ => ⟨rfl, nofun⟩) _ _).and_then
        fun _ => hlift
    | memory => exact hread _ _ trivial
  exact (hkeeps _ _ _ 0 [] hrun rfl fun _ _ => trivial).1

theorem argOf_staysMarked (hgen : ArgOf W c ty gen) : StaysMarked gen := by
  cases hgen with
  | core =>
    exact StaysMarked.bind (.of_keeps (Keeps.getArgs (functionBindgen_marked c) (fun _ => rfl) _ _))
      fun _ => (staysMarked_lift ty).1
  | memory => exact (staysMarked_lift ty).2 _ _

theorem argOf_marks (hW : W.Lawful p) (hgen : ArgOf W c ty gen) (hty : BorrowsImported c.resources ty) :
    Marks gen := by
  obtain ⟨id, h, name, hhas, hown, himport⟩ := hty
  obtain ⟨hlift, hread⟩ := lift_marks hW.fieldOffsets_types hhas hown himport
  cases hgen with
  | core => exact .right fun _ => hlift
  | memory => exact hread _ _

theorem each_drops (hW : W.Lawful p) {types : List Ty} {gens : List (Gen (functionBindgen c) Unit)}
    {ops : List Operand} (heach : Each gens b ops b') (hgens : List.Forall₂ (ArgOf W c) types gens) :
    b'.resourceDrops = [] ↔ b.resourceDrops = [] ∧ ∀ ty ∈ types, ¬BorrowsImported c.resources ty := by
  induction heach generalizing types with
  | nil =>
    cases hgens
    exact ⟨fun h => ⟨h, nofun⟩, fun h => h.1⟩
  | @cons g gs b r b₁ rs b' hputs _ ih =>
    cases hgens with
    | @cons ty _ types _ hgen hgens =>
      rw [ih hgens, List.forall_mem_cons, ← and_assoc]
      refine and_congr_left fun _ => ⟨fun hnil => ?_, fun ⟨hnil, hno⟩ => ?_⟩
      · obtain ⟨s, s', rfl, hs, hrun, -, rfl⟩ := hputs
        refine ⟨not_not.mp fun hne => argOf_staysMarked hgen s _ s' hrun hne hnil, fun hty => ?_⟩
        exact argOf_marks hW hgen hty s _ s' hrun hnil
      · rw [argOf_unmarked hgen hno hputs, hnil]

end

/-- The variables of `resource_drops` tell whether there are borrows of imported resources. -/
theorem vars_eq_nil_iff {W : WitParser} {p : Nat} (hW : W.Lawful p) {c : Config} {func : Function}
    {g : Generated} (e : ExportText W c func g) :
    g.vars = [] ↔ ∀ ty ∈ func.paramTypes, ¬BorrowsImported c.resources ty := by
  obtain ⟨b, gens, hb, heach, hgens⟩ := e.each
  rw [← e.vars, each_drops hW heach hgens, hb]
  exact ⟨fun h => h.2, fun h => ⟨rfl, h⟩⟩

/-! ## What a run does to handles -/

/-- The handles that were made, numbered in order, the variables they are in, and the ones
that were disposed of, each with whether that was after the implementation returned and
before the host had the result. -/
structure Borrows where
  made : Nat
  held : Local → Option Nat
  disposed : List (Nat × Bool)
  returned : Bool
  handedOver : Bool

namespace Borrows

def new : Borrows := ⟨0, fun _ => none, [], false, false⟩

def step (b : Borrows) : Act → Borrows
  | .lift x => { b with made := b.made + 1, held := Function.update b.held x (some b.made) }
  | .call _ _ => { b with returned := true }
  | .dispose x =>
    match b.held x with
    | some h => { b with disposed := b.disposed ++ [(h, b.returned && !b.handedOver)] }
    -- `null?.Dispose()`
    | none => b
  | .taskReturn _ | .return_ => { b with handedOver := true }
  | .enter _ _ | .cleanup => b

def after (b : Borrows) (t : List Act) : Borrows := t.foldl step b

theorem after_append (b : Borrows) (t u : List Act) : b.after (t ++ u) = (b.after t).after u :=
  List.foldl_append ..

/-- Lifting puts the last handle that was made for a variable in it. -/
theorem after_lifts (xs : List Local) : ∃ held, new.after (xs.map .lift) =
    ⟨xs.length, held, [], false, false⟩ ∧
      ∀ x (h : Nat), held x = some h ↔ xs[h]? = some x ∧ ∀ j : Nat, h < j → xs[j]? ≠ some x := by
  induction xs using List.reverseRecOn with
  | nil => exact ⟨_, rfl, by simp⟩
  | append_singleton xs y ih =>
    obtain ⟨held, hafter, hheld⟩ := ih
    refine ⟨Function.update held y (some xs.length), ?_, fun x h => ?_⟩
    · rw [List.map_append, after_append, hafter]
      simp [after, step]
    · by_cases hxy : x = y
      · subst hxy
        rw [Function.update_self]
        constructor
        · rintro ⟨⟩
          refine ⟨by simp, fun j hj => ?_⟩
          rw [List.getElem?_eq_none (by simp; omega)]
          simp
        · rintro ⟨hx, hlast⟩
          have hle : h < (xs ++ [x]).length := (List.getElem?_eq_some_iff.mp hx).1
          rw [List.length_append, List.length_singleton] at hle
          rcases Nat.lt_or_ge h xs.length with hlt | hge
          · exact absurd (by simp) (hlast xs.length hlt)
          · rw [Nat.le_antisymm (Nat.le_of_lt_succ hle) hge]
      · rw [Function.update_of_ne hxy, hheld]
        have hget : ∀ j : Nat, (xs ++ [y])[j]? = some x ↔ xs[j]? = some x := by
          intro j
          rcases Nat.lt_trichotomy j xs.length with hj | rfl | hj
          · rw [List.getElem?_append_left hj]
          · simp [Ne.symm hxy]
          · rw [List.getElem?_eq_none (by simp; omega), List.getElem?_eq_none (by omega)]
        simp only [hget, Ne]

/-- Disposing of variables one after the other. -/
theorem after_disposes (b : Borrows) (vars : List Local) : b.after (vars.map .dispose) =
    { b with disposed := b.disposed ++ vars.filterMap fun x =>
        (b.held x).map fun h => (h, b.returned && !b.handedOver) } := by
  induction vars generalizing b with
  | nil => simp [after]
  | cons x vars ih =>
    show (b.step (Act.dispose x)).after (vars.map .dispose) = _
    rw [ih]
    cases hx : b.held x with
    | none => simp [step, hx]
    | some h => simp [step, hx, List.append_assoc]

/-- Of the handles that are in variables, each is in one. -/
theorem filter_held {held : Local → Option Nat} {vars : List Local} (hnodup : vars.Nodup)
    (hinj : ∀ x y h, held x = some h → held y = some h → x = y) (h : Nat) :
    (vars.filterMap fun x => (held x).map fun h => (h, true)).filter (·.1 = h) =
      if ∃ x ∈ vars, held x = some h then [(h, true)] else [] := by
  induction vars with
  | nil => simp
  | cons x vars ih =>
    obtain ⟨hx, hnodup⟩ := List.nodup_cons.mp hnodup
    by_cases hheld : held x = some h
    · have hnone : ¬∃ y ∈ vars, held y = some h := by
        rintro ⟨y, hy, hyh⟩
        exact hx (hinj _ _ h hheld hyh ▸ hy)
      have hrest := ih hnodup
      rw [if_neg hnone] at hrest
      simp [hheld, hrest]
    · have hexists : (∃ y ∈ x :: vars, held y = some h) ↔ ∃ y ∈ vars, held y = some h := by
        simp [hheld]
      rw [if_congr hexists rfl rfl, ← ih hnodup]
      cases hxh : held x with
      | none => simp [hxh]
      | some k =>
        have hne : k ≠ h := fun heq => hheld (by rw [hxh, heq])
        simp [hxh, hne]

/-- If one of the variables is lifted into twice, the first handle is lost. -/
theorem held_all_iff {xs : List Local} {held : Local → Option Nat}
    (hheld : ∀ x (h : Nat), held x = some h ↔ xs[h]? = some x ∧ ∀ j : Nat, h < j → xs[j]? ≠ some x) :
    (∀ h < xs.length, ∃ x ∈ xs, held x = some h) ↔ xs.Nodup := by
  rw [List.nodup_iff_getElem?_ne_getElem?]
  constructor
  · intro hall i j hij hj heq
    obtain ⟨x, -, hx⟩ := hall i (Nat.lt_trans hij hj)
    obtain ⟨hget, hlast⟩ := (hheld x i).mp hx
    exact hlast j hij (heq ▸ hget)
  · intro hne h hh
    have hget : xs[h]? = some xs[h] := List.getElem?_eq_getElem hh
    refine ⟨xs[h], List.getElem_mem hh, (hheld _ _).mpr ⟨hget, fun j hj heq => ?_⟩⟩
    exact hne h j hj (List.getElem?_eq_some_iff.mp heq).1 (hget.trans heq.symm)

end Borrows

/-- The parameters of the inner method, where there is one. -/
def innerOps (src : Text Act) : Option (List Operand) :=
  src.findSome? fun
    | .act (Act.enter _ ops) => some ops
    | _ => none

/-- The variable can be named where it is disposed of: it is not `this`, and in the inner
method of an async export it is a parameter, whose declared type exists if it is that of an
exported resource. -/
def InScope (R : Resources) (func : Function) (src : Text Act) (x : Local) : Prop :=
  x ≠ .this ∧ ∀ ops, innerOps src = some ops → ∃ ty o, (ty, o) ∈ func.paramTypes.zip ops ∧
    stripLift o = .var x ∧ ∀ r, handleOf ty = some r → R.all r = some .export_

/-- The code can be compiled, and the run disposes of every handle that it makes, once, after
the implementation has returned and before the result is handed over, and of nothing else. -/
structure DisposesBorrows (R : Resources) (func : Function) (g : Generated) (t : List Act) :
    Prop where
  inScope : ∀ x ∈ g.vars, InScope R func g.src x
  once : ∀ h < (Borrows.new.after t).made,
    (Borrows.new.after t).disposed.filter (·.1 = h) = [(h, true)]
  only : ∀ d ∈ (Borrows.new.after t).disposed, d.1 < (Borrows.new.after t).made

/-! ## Runs of exports -/

section
variable {W : WitParser} {c : Config} {func : Function} {g : Generated}

theorem wraps_leaves {t : Text Act} {drops : List Local} (h : t.All (Wraps True drops)) :
    t.All (Act.leaves · = false) := h.mono fun _ ⟨_, _, _, heq⟩ => by rw [heq]; rfl

/-- A whole run lifts, makes the call, disposes, and hands the result over. -/
theorem ExportText.runs (e : ExportText W c func g) {t : List Act} {o : Outcome}
    (h : Runs Act.leaves g.src t o) (ho : o ≠ .cut) : ∃ xs : List Local, (∀ x ∈ xs, x ∈ g.vars) ∧
      t = xs.map .lift ++ (if c.kind.isAsync then [Act.enter (callArgs c.kind e.ops) e.ops] else []) ++
        [Act.call (callArgs c.kind e.ops) (around c func c.kind.isAsync)] ++ g.vars.map .dispose ++
        ending c.kind.isAsync e.results e.cleanup := by
  rw [e.src, List.append_assoc, List.append_assoc] at h
  obtain ⟨t₁, t₂, rfl, h₁, h₂⟩ := h.of_append_whole (wraps_leaves e.lift_all) ho
  obtain ⟨xs, rfl, hxs⟩ : ∃ xs : List Local, t₁ = xs.map .lift ∧ ∀ x ∈ xs, x ∈ g.vars := by
    have hall := h₁.all e.lift_all
    clear h h₁
    induction t₁ with
    | nil => exact ⟨[], rfl, nofun⟩
    | cons a t₁ ih =>
      obtain ⟨⟨-, x, hx, rfl⟩, hrest⟩ := List.forall_mem_cons.mp hall
      obtain ⟨xs, rfl, hxs⟩ := ih hrest
      exact ⟨x :: xs, rfl, List.forall_mem_cons.mpr ⟨hx, hxs⟩⟩
  have hcall : callText c func e.ops g.vars = Text.acts
      ((if c.kind.isAsync then [Act.enter (callArgs c.kind e.ops) e.ops] else []) ++
        [Act.call (callArgs c.kind e.ops) (around c func c.kind.isAsync)] ++ g.vars.map .dispose) := by
    unfold callText Text.acts
    cases c.kind.isAsync <;> simp
  rw [hcall] at h₂
  obtain ⟨t₃, rfl, h₃⟩ := h₂.acts_inv (fun a ha => by
    rcases List.mem_append.mp ha with ha | ha
    · rcases List.mem_append.mp ha with ha | ha
      · split at ha
        · rw [List.mem_singleton.mp ha]; rfl
        · cases ha
      · rw [List.mem_singleton.mp ha]; rfl
    · obtain ⟨x, -, rfl⟩ := List.mem_map.mp ha
      rfl) ho
  obtain ⟨t₄, t₅, rfl, h₄, h₅⟩ := h₃.of_append_whole (e.lower_all.mono fun _ => False.elim) ho
  obtain rfl : t₄ = [] := by
    have hall := h₄.all e.lower_all
    cases t₄ with
    | nil => rfl
    | cons a _ => exact (hall a List.mem_cons_self).elim
  have hending : t₅ = ending c.kind.isAsync e.results e.cleanup := h₅.acts_whole (fun a ha => by
    cases hasync : c.kind.isAsync <;> cases hcleanup : e.cleanup <;> rw [hasync, hcleanup] at ha <;>
      simp [ending] at ha <;> rw [ha] <;> rfl) ho
  refine ⟨xs, hxs, ?_⟩
  rw [hending]
  simp only [List.append_assoc, List.nil_append]

/-- No statement is the call of the inner method. -/
theorem innerOps_none {t : Text Act} (h : t.All fun a => ∀ args ops, a ≠ .enter args ops) :
    innerOps t = none := by
  refine List.findSome?_eq_none_iff.mpr fun stmt hstmt => ?_
  cases h stmt hstmt with
  | act ha =>
    next a =>
    cases a <;> first | rfl | exact absurd rfl (ha _ _)
  | branch | loop => rfl

theorem ExportText.innerOps (e : ExportText W c func g) :
    innerOps g.src = if c.kind.isAsync then some e.ops else none := by
  have hlift : FunctionBindgen.innerOps e.lift = none :=
    innerOps_none (e.lift_all.mono fun _ ⟨_, _, _, heq⟩ _ _ h => by rw [heq] at h; cases h)
  rw [e.src, List.append_assoc, List.append_assoc]
  unfold FunctionBindgen.innerOps at hlift ⊢
  rw [List.findSome?_append, hlift, Option.none_or]
  unfold callText
  cases hasync : c.kind.isAsync with
  | true => rfl
  | false =>
    have hdisposes : FunctionBindgen.innerOps (Text.acts (g.vars.map .dispose)) = none :=
      innerOps_none (.acts fun a ha args ops h => by
        obtain ⟨x, -, rfl⟩ := List.mem_map.mp ha
        cases h)
    have hlower : FunctionBindgen.innerOps e.lower = none :=
      innerOps_none (e.lower_all.mono fun _ => False.elim)
    have hending : FunctionBindgen.innerOps (Text.acts (ending false e.results e.cleanup)) = none := by
      cases e.cleanup <;> rfl
    unfold FunctionBindgen.innerOps at hdisposes hlower hending
    simp only [Bool.false_eq_true, if_false, List.nil_append, List.cons_append,
      List.findSome?_cons, List.findSome?_append, hdisposes, hlower, hending,
      Option.or_none]

/-- What a whole run does to handles. -/
theorem ExportText.after (e : ExportText W c func g) {t : List Act} {o : Outcome}
    (h : Runs Act.leaves g.src t o) (ho : o ≠ .cut) : ∃ (xs : List Local) (held : Local → Option Nat),
      (∀ x ∈ xs, x ∈ g.vars) ∧ (∀ x, t.count (Act.lift x) = xs.count x) ∧
      (∀ x (h : Nat), held x = some h ↔ xs[h]? = some x ∧ ∀ j : Nat, h < j → xs[j]? ≠ some x) ∧
      (Borrows.new.after t).made = xs.length ∧
      (Borrows.new.after t).disposed = g.vars.filterMap fun x => (held x).map fun h => (h, true) := by
  obtain ⟨xs, hxs, rfl⟩ := e.runs h ho
  obtain ⟨held, hafter, hheld⟩ := Borrows.after_lifts xs
  refine ⟨xs, held, hxs, fun x => ?_, hheld, ?_⟩
  · have hinj : Function.Injective Act.lift := fun _ _ h => by cases h; rfl
    have hdisposes : (g.vars.map Act.dispose).count (Act.lift x) = 0 :=
      List.count_eq_zero.mpr fun hmem => by
        obtain ⟨y, -, heq⟩ := List.mem_map.mp hmem
        cases heq
    have hending : (ending c.kind.isAsync e.results e.cleanup).count (Act.lift x) = 0 := by
      cases c.kind.isAsync <;> cases e.cleanup <;> rfl
    rw [List.count_append, List.count_append, List.count_append, List.count_append,
      List.count_map_of_injective xs _ hinj, hdisposes, hending]
    cases c.kind.isAsync <;> rfl
  · have hcall : Borrows.new.after (xs.map .lift ++ (if c.kind.isAsync then
        [Act.enter (callArgs c.kind e.ops) e.ops] else []) ++ [Act.call (callArgs c.kind e.ops)
          (around c func c.kind.isAsync)]) = ⟨xs.length, held, [], true, false⟩ := by
      rw [Borrows.after_append, Borrows.after_append, hafter]
      cases c.kind.isAsync <;> rfl
    rw [Borrows.after_append, Borrows.after_append, hcall, Borrows.after_disposes]
    cases c.kind.isAsync <;> cases e.cleanup <;> exact ⟨rfl, rfl⟩

/-- Each operand of an argument is put on the stack by an emitter of its type. -/
theorem ExportText.operand (e : ExportText W c func g) {p : Nat} (hW : W.Lawful p) {ty : Ty}
    {o : Operand} (h : (ty, o) ∈ func.paramTypes.zip e.ops) : ∃ op n, o = operandOf c [op] n (dealias ty) ∧
      (op = .text ∨ ∃ nth, op = .var (.param nth)) := by
  obtain ⟨b, gens, -, heach, hgens⟩ := e.each
  generalize func.paramTypes = types at h hgens
  generalize e.ops = ops at h heach
  generalize e.lifted = b' at heach
  induction heach generalizing types with
  | nil => rw [List.zip_nil_right] at h; cases h
  | cons hputs _ ih =>
    cases hgens with
    | cons hgen hgens =>
      rw [List.zip_cons_cons] at h
      rcases List.mem_cons.mp h with heq | h
      · obtain ⟨rfl, rfl⟩ := Prod.mk.inj heq
        cases hgen with
        | core =>
          obtain ⟨n, ho, -⟩ := liftArg_operand hW hputs
          exact ⟨_, n, ho, .inr ⟨_, rfl⟩⟩
        | memory =>
          obtain ⟨n, ho, -⟩ := readArg_operand hputs
          exact ⟨_, n, ho, .inl rfl⟩
      · exact ih _ hgens h

/-- Only handles of imported resources are in the variables that are kept apart for them. -/
theorem stripLift_operandOf {op : Operand} {n m : Nat} {ty : Ty}
    (hop : op = .text ∨ ∃ nth, op = .var (.param nth))
    (h : stripLift (operandOf c [op] n ty) = .var (.resource m)) :
    ∃ id hd name, ty = .handle id hd name ∧ c.resources.imports hd := by
  have hscalar : stripLift op ≠ .var (.resource m) := by
    rcases hop with rfl | ⟨nth, rfl⟩ <;> nofun
  have hunchecked : ∀ w, stripLift (.unchecked w op) ≠ .var (.resource m) := by
    intro w
    rcases hop with rfl | ⟨nth, rfl⟩ <;> nofun
  cases ty
  case handle id hd name =>
    refine ⟨id, hd, name, rfl, ?_⟩
    by_contra himport
    rw [show operandOf c [op] n (.handle id hd name) = .var (.tmp n) from if_neg himport] at h
    cases h
  case prim q =>
    cases q <;> first
      | exact absurd h (hunchecked _)
      | exact absurd h hscalar
      | cases h
  all_goals cases h

end

/-! ## Borrows at the end of a call -/

theorem not_constructor_of_async {kind : FunctionKind} (h : kind.isAsync) :
    kind.isConstructor = false := by
  cases kind <;> first | rfl | cases h

/-- In the inner method of an async export no variable of `resource_drops` can be named. -/
theorem not_inScope {W : WitParser} {p : Nat} (hW : W.Lawful p) {R : Resources} {c : Config}
    {func : Function} {g : Generated} (e : ExportText W c func g) (hasync : c.kind.isAsync)
    (hR : c.resources = R) {x : Local} (hx : x ∈ g.vars) : ¬InScope R func g.src x := by
  rintro ⟨-, hscope⟩
  obtain ⟨ty, o, hmem, hstrip, hdeclared⟩ := hscope e.ops (by rw [e.innerOps, hasync]; rfl)
  obtain ⟨m, -, hm⟩ := e.numbered.named x (e.vars ▸ hx)
  rw [handleVar, not_constructor_of_async hasync] at hm
  obtain ⟨op, n, rfl, hop⟩ := e.operand hW hmem
  obtain ⟨id, hd, name, hty, himport⟩ := stripLift_operandOf hop (hstrip.trans (congrArg _ hm))
  have hof : handleOf ty = some hd.resource := by rw [handleOf, hty]
  have hexport := hdeclared _ hof
  rw [Resources.imports, hR, R.dealias_of_known _ (by rw [hexport]; rfl), hexport] at himport
  cases himport

/-- Every borrow of an imported resource is disposed of once and in time exactly if there is
none, or the export is neither async nor a constructor and no variable is lifted into
twice. -/
theorem disposesBorrows_iff {W : WitParser} {p : Nat} (hW : W.Lawful p) {R : Resources} {wit : Bool}
    {func : Function} {g : Generated} (h : export_ W R wit func = .ok g) {t : List Act}
    {o : Outcome} (hrun : Runs Act.leaves g.src t o) (ho : o ≠ .cut) :
    DisposesBorrows R func g t ↔ (∀ ty ∈ func.paramTypes, ¬BorrowsImported R ty) ∨
      func.kind.isAsync = false ∧ func.kind.isConstructor = false ∧ ∀ x, t.count (Act.lift x) ≤ 1 := by
  obtain ⟨e⟩ := export_text hW h
  obtain ⟨xs, held, hxs, hcount, hheld, hmade, hdisposed⟩ := e.after hrun ho
  have hinj : ∀ x y h, held x = some h → held y = some h → x = y := fun x y h hx hy =>
    Option.some.inj (((hheld x h).mp hx).1.symm.trans ((hheld y h).mp hy).1)
  have honly : ∀ d ∈ (Borrows.new.after t).disposed, d.1 < (Borrows.new.after t).made := by
    rw [hdisposed, hmade]
    intro d hd
    obtain ⟨x, -, hx⟩ := List.mem_filterMap.mp hd
    obtain ⟨k, hk, rfl⟩ := Option.map_eq_some_iff.mp hx
    exact (List.getElem?_eq_some_iff.mp ((hheld x k).mp hk).1).1
  have hcounts : (∀ x, t.count (Act.lift x) ≤ 1) ↔ xs.Nodup := by
    simp only [hcount, List.nodup_iff_count_le_one]
  have hnone : g.vars = [] ↔ ∀ ty ∈ func.paramTypes, ¬BorrowsImported R ty := vars_eq_nil_iff hW e
  rw [← hnone, hcounts]
  by_cases hvars : g.vars = []
  · refine iff_of_true ⟨by rw [hvars]; simp, fun h hh => ?_, honly⟩ (.inl hvars)
    obtain rfl : xs = [] := List.eq_nil_iff_forall_not_mem.mpr fun x hx => by
      have hmem := hxs x hx
      rw [hvars] at hmem
      cases hmem
    rw [hmade] at hh
    cases hh
  obtain ⟨x, hx⟩ := List.exists_mem_of_ne_nil _ hvars
  cases hasync : func.kind.isAsync with
  | true =>
    refine iff_of_false (fun hd => not_inScope hW e hasync rfl hx (hd.inScope x hx)) ?_
    rintro (h | ⟨h, -⟩)
    · exact hvars h
    · cases h
  | false =>
    cases hconstructor : func.kind.isConstructor with
    | true =>
      refine iff_of_false (fun hd => (hd.inScope x hx).1 ?_) ?_
      · obtain ⟨n, -, rfl⟩ := e.numbered.named x (e.vars ▸ hx)
        exact if_pos hconstructor
      · rintro (h | ⟨-, h, -⟩)
        · exact hvars h
        · cases h
    | false =>
      have hnodup : g.vars.Nodup := e.vars ▸ e.numbered.nodup hconstructor
      have honce : (∀ h < (Borrows.new.after t).made,
          (Borrows.new.after t).disposed.filter (·.1 = h) = [(h, true)]) ↔ xs.Nodup := by
        rw [hmade, hdisposed, ← Borrows.held_all_iff hheld]
        refine forall₂_congr fun h hh => ?_
        rw [Borrows.filter_held hnodup hinj h]
        constructor
        · intro hsome
          split at hsome
          · next hmem =>
              obtain ⟨y, -, hy⟩ := hmem
              exact ⟨y, List.mem_of_getElem? ((hheld y h).mp hy).1, hy⟩
          · cases hsome
        · rintro ⟨y, hy, hyh⟩
          exact if_pos ⟨y, hxs y hy, hyh⟩
      refine ⟨fun hd => .inr ⟨rfl, rfl, honce.mp hd.once⟩, ?_⟩
      rintro (h | ⟨-, -, hnodup'⟩)
      · exact absurd h hvars
      · refine ⟨fun y hy => ⟨?_, ?_⟩, honce.mpr hnodup', honly⟩
        · obtain ⟨n, -, rfl⟩ := e.numbered.named y (e.vars ▸ hy)
          rw [handleVar, show (config W R wit func).kind.isConstructor = false from hconstructor]
          simp
        · rw [e.innerOps, show (config W R wit func).kind.isAsync = false from hasync]
          simp

/-! ### A list of borrows -/

/-- Every resource is imported. -/
def imported : Resources := ⟨id, fun _ => some .import_, fun _ _ => rfl⟩

/-- `export f: func(xs: list<borrow<r>>);` -/
def listFunction : Function :=
  ⟨"f", .freestanding, [("xs", .list 1 (.handle 2 (.borrow 0) "r"))], none⟩

theorem wasmSignature_list : WitParser.canonical.wasmSignature .guestExport listFunction =
    ⟨[.pointer, .length], [], false, false⟩ := by
  have hflat : (listFunction.paramTypes.map Ty.pushFlat).flatten = [.pointer, .length] := by
    show [Ty.pushFlat _].flatten = _
    rw [Ty.pushFlat]
    rfl
  show wasmSignature .guestExport listFunction = _
  unfold wasmSignature flatParams
  rw [hflat]
  rfl

def listExport : Generated where
  src := [.loop [Stmt.act (Act.lift (.resource 4))], .act (Act.call [.var (.tmp 5)] ⟨false, [], false⟩),
    .act (Act.dispose (.resource 4)), .act Act.return_]
  vars := [.resource 4]

theorem export_list : export_ .canonical imported false listFunction = .ok listExport := by
  have hconfig : config .canonical imported false listFunction =
      ⟨.freestanding, .export_, 2, imported, false⟩ := by
    unfold config
    rw [wasmSignature_list]
    rfl
  have hparams : listFunction.paramTypes = [.list 1 (.handle 2 (.borrow 0) "r")] := rfl
  have hcall : ∃ s, call .canonical (B := functionBindgen ⟨.freestanding, .export_, 2, imported, false⟩)
      .guestExport .liftArgsLowerResults listFunction false State.new = .ok ((), s) ∧
      s.bindgen.src = listExport.src ∧ s.bindgen.resourceDrops = listExport.vars := by
    unfold WitBindgen.call Generator.call
    rw [wasmSignature_list]
    have hflat : WitParser.canonical.flatTypes (.list 1 (.handle 2 (.borrow 0) "r")) (some 16) =
        some [.pointer, .length] := by
      show (if (Ty.pushFlat _).length ≤ 16 then some (Ty.pushFlat _) else none) = _
      rw [Ty.pushFlat]
      rfl
    simp only [callLiftArgs, Bool.false_eq_true, ↓reduceIte, reduceCtorEq, decide_false,
      Bool.and_self, maxFlatParams, hparams, liftArgs, hflat, lift, readFromMemory,
      bind_pure_comp, map_bind, id_map', bind_assoc]
    exact ⟨_, rfl, rfl, rfl⟩
  obtain ⟨s, hs, hsrc, hdrops⟩ := hcall
  rw [export_of_call hconfig hs, hsrc, hdrops]

/-- What is done for a list of `n` handles. -/
def listRun (n : Nat) : List Act :=
  List.replicate n (Act.lift (.resource 4)) ++
    [Act.call [.var (.tmp 5)] ⟨false, [], false⟩, .dispose (.resource 4), .return_]

theorem runs_list (n : Nat) : Runs Act.leaves listExport.src (listRun n) .left := by
  have hrest : Runs Act.leaves (listExport.src.drop 1)
      [Act.call [.var (.tmp 5)] ⟨false, [], false⟩, .dispose (.resource 4), .return_] .left :=
    .act rfl (.act rfl (.leave rfl))
  induction n with
  | zero => exact .stop hrest
  | succ n ih => exact .turn (.act rfl ih)

theorem disposesBorrows_iff_one : DisposesBorrows imported listFunction listExport (listRun 1) ↔
    (∀ ty ∈ listFunction.paramTypes, ¬BorrowsImported imported ty) ∨
      listFunction.kind.isAsync = false ∧ listFunction.kind.isConstructor = false ∧
        ∀ x, (listRun 1).count (Act.lift x) ≤ 1 :=
  disposesBorrows_iff canonical_lawful export_list (runs_list 1) nofun

/-- Of two handles in a list, the first stays with the export. -/
theorem first_of_two_kept : export_ .canonical imported false listFunction = .ok listExport ∧
    Runs Act.leaves listExport.src (listRun 2) .left ∧
    ¬DisposesBorrows imported listFunction listExport (listRun 2) := by
  refine ⟨export_list, runs_list 2, fun h => ?_⟩
  have honce := h.once 0 (by decide)
  revert honce
  decide

end WitBindgen.CSharp.FunctionBindgen
