import WitBindgen.Abi.Keeps
import WitBindgen.Machine.Lifting
import WitBindgen.Canon.Owned

/-!
# The generator frees what the canonical ABI frees

The code `deallocateIndirect` records computes `freeMem`, for every supported
type. `deallocate` is less exact. It pops one operand for a set of flags, however
many words the flags have, and stops at a fixed-length list. Where a value has
neither among its core values its code computes `freeFlat`; otherwise operands
stay on the stack, or nothing is recorded at all.
-/

namespace WitBindgen

open Heap Code Generator

/-! ## What owns something -/

theorem anyOk_ok {α : Type} {xs : List α} {f : α → Except Panic Bool} {g : α → Bool}
    (h : ∀ x ∈ xs, f x = .ok (g x)) : anyOk (xs.map f) = .ok (xs.any g) := by
  induction xs with
  | nil => rfl
  | cons x xs ih =>
    rw [List.map_cons, anyOk, h x List.mem_cons_self, List.any_cons]
    have hrest := ih fun y hy => h y (List.mem_cons_of_mem _ hy)
    cases g x with
    | true => rfl
    | false => exact hrest

section
variable {what : Deallocate} {ty : Ty}

/-- `needs_deallocate` answers for every supported type. -/
theorem needsDeallocate_ok (h : ty.Supported) : needsDeallocate what ty = .ok (ty.owns what) := by
  induction ty using Ty.ind with
  | prim q => rw [needsDeallocate, Ty.owns]; rfl
  | string => rw [needsDeallocate, Ty.owns]; rfl
  | errorContext => rw [needsDeallocate, Ty.owns]; rfl
  | type id t ih => rw [needsDeallocate, Ty.owns]; exact ih h.of_type
  | list id t ih => rw [needsDeallocate, Ty.owns]; rfl
  | map id k t ihk iht => rw [needsDeallocate, Ty.owns]; rfl
  | fixedLengthList id t n ih =>
    rw [needsDeallocate, Ty.owns]
    exact ih h.of_fixedLengthList
  | fields ty types hf ih =>
    rw [needsDeallocate_fields hf, Ty.owns_fields hf]
    exact anyOk_ok fun t ht => ih t ht (h.of_fields hf t ht)
  | flags id name names => rw [needsDeallocate, Ty.owns]; rfl
  | arms ty arms ha ih =>
    rw [needsDeallocate_arms ha, Ty.owns_arms ha]
    refine anyOk_ok fun o ho => ?_
    cases o with
    | none => rfl
    | some t => exact ih t ho ((h.of_arms ha).2 t ho)
  | enum id name cases => rw [needsDeallocate, Ty.owns]; rfl
  | handle id hd name => cases hd <;> · rw [needsDeallocate, Ty.owns]; rfl
  | future id t => rw [needsDeallocate, Ty.owns]; rfl
  | stream id t => rw [needsDeallocate, Ty.owns]; rfl
  | resource id => exact absurd h Ty.not_supported_resource
  | unknown id => exact absurd h Ty.not_supported_unknown

end

theorem Ty.Valid.flags_ne_nil {id : TypeId} {name : String} {names : List String}
    (h : (Ty.flags id name names).Valid) : names ≠ [] := by
  cases h with
  | fields hf _ => cases hf
  | flags hne => exact hne
  | arms ha _ _ _ => cases ha

/-! ## What is left of a value's core values -/

/-- The words of a set of flags that come after its first. -/
def WitParser.moreWords (W : WitParser) : Ty → Nat
  | .flags _ _ names => (W.flagsRepr names.length).count - 1
  | _ => 0

/-- How many operands `deallocate` leaves on the stack. -/
def WitParser.leftover (W : WitParser) (ty : Ty) : Nat := (ty.flatLeaves.map W.moreWords).sum

/-- No fixed-length list is among the parts a value's core values stand for. -/
def Ty.flatFixed (ty : Ty) : Bool := ty.flatLeaves.any Ty.isFixedLengthList

theorem sum_map_flatMap {α β : Type} (xs : List α) (f : α → List β) (g : β → Nat) :
    ((xs.flatMap f).map g).sum = (xs.map fun x => ((f x).map g).sum).sum := by
  induction xs with
  | nil => rfl
  | cons x xs ih => simp [ih]

section
variable {W : WitParser} {ty : Ty}

theorem leftover_fields {types : List Ty} (h : ty.fieldTypes = some types) :
    W.leftover ty = (types.map W.leftover).sum := by
  rw [WitParser.leftover, Ty.flatLeaves_fields h, sum_map_flatMap]
  rfl

theorem leftover_arms {arms : List (Option Ty)} (h : ty.arms = some arms) :
    W.leftover ty = (arms.map fun o => o.elim 0 W.leftover).sum := by
  rw [WitParser.leftover, Ty.flatLeaves_arms h, sum_map_flatMap]
  congr 1
  refine List.map_congr_left fun o _ => ?_
  cases o <;> rfl

theorem flatFixed_fields {types : List Ty} (h : ty.fieldTypes = some types) :
    ty.flatFixed = types.any Ty.flatFixed := by
  rw [Ty.flatFixed, Ty.flatLeaves_fields h, List.any_flatMap]
  rfl

theorem flatFixed_arms {arms : List (Option Ty)} (h : ty.arms = some arms) :
    ty.flatFixed = arms.any fun o => o.any Ty.flatFixed := by
  rw [Ty.flatFixed, Ty.flatLeaves_arms h, List.any_flatMap]
  congr 1
  funext o
  cases o <;> rfl

end

/-! ## Freeing in memory -/

section
variable {M : Machine} {canon : Ty → Bool} {what : Deallocate}

/-- The code `g` records frees what lies at the address at `addr`, as `spec` does. -/
def Frees (M : Machine) (ra : Option Realloc) (g : RGen M.W canon Unit) (addr n : Nat)
    (spec : Nat → Exec Event Unit) : Prop :=
  ∃ code n', Emits ra g [] n () [] code n' ∧
    ∀ ctx env a, env.length = n → env[addr]? = some (.ptr a) →
      Computes M.step code ctx env n' (spec a) fun _ _ => True

/-- Freeing every value of a type does what the canonical ABI says. -/
def FreeOk (M : Machine) (canon : Ty → Bool) (what : Deallocate) (ra : Option Realloc)
    (t : Ty) : Prop :=
  ∀ addr n offset, Frees M ra (deallocateIndirect M.W what t addr offset : RGen M.W canon Unit)
    addr n fun a => freeMem M.toTarget what t (a + offset.eval M.p)

/-- The same of the part behind the check. -/
def NeededOk (M : Machine) (canon : Ty → Bool) (what : Deallocate) (ra : Option Realloc)
    (t : Ty) : Prop :=
  ∀ addr n offset, Frees M ra
    (deallocateIndirectNeeded M.W what t addr offset : RGen M.W canon Unit) addr n
      fun a => freeMem M.toTarget what t (a + offset.eval M.p)

variable {ra : Option Realloc} {xs : List Nat} {addr n k : Nat} {g : RGen M.W canon Unit}

theorem Frees.congr {spec spec' : Nat → Exec Event Unit} (h : Frees M ra g addr n spec)
    (hspec : ∀ a, spec a = spec' a) : Frees M ra g addr n spec' :=
  (funext hspec : spec = spec') ▸ h

/-- Nothing is recorded, and nothing freed. -/
theorem Frees.nothing : Frees M ra (pure () : RGen M.W canon Unit) addr n fun _ => pure () := by
  refine ⟨[], n, Emits.pure, ?_⟩
  rintro ctx env a rfl _
  exact Computes.nil trivial

theorem Frees.bind {g' : Unit → RGen M.W canon Unit} {spec spec' : Nat → Exec Event Unit}
    (h : Frees M ra g addr n spec) (h' : ∀ n, Frees M ra (g' ()) addr n spec') :
    Frees M ra (g >>= g') addr n fun a => spec a >>= fun _ => spec' a := by
  obtain ⟨code, n₁, hemits, hcomp⟩ := h
  obtain ⟨code', n₂, hemits', hcomp'⟩ := h' n₁
  refine ⟨code ++ code', n₂, hemits.bind hemits', ?_⟩
  intro ctx env a hn haddr
  exact Computes.append (hcomp ctx env a hn haddr) fun env₁ _ hpre hlen _ =>
    hcomp' ctx env₁ a hlen (getElem?_mono hpre haddr)

/-- Freeing starts with the check. -/
theorem freeOk_of_needed {t : Ty} (hs : t.Supported)
    (hno : t.owns what = false → ∀ a, freeMem M.toTarget what t a = pure ())
    (h : t.owns what = true → NeededOk M canon what ra t) : FreeOk M canon what ra t := by
  intro addr n offset
  rw [deallocateIndirect, needsDeallocate_ok hs]
  cases howns : t.owns what with
  | false => exact Frees.nothing.congr fun a => (hno howns _).symm
  | true => exact h howns addr n offset

/-- A type the check lets through for nothing. -/
theorem freeOk_of_keeps {t : Ty} (hs : t.Supported)
    (hfree : ∀ a, freeMem M.toTarget what t a = pure ())
    (h : ∀ addr offset, (deallocateIndirectNeeded M.W what t addr offset : RGen M.W canon Unit) =
      pure ()) : FreeOk M canon what ra t :=
  freeOk_of_needed hs (fun _ => hfree) fun _ addr n offset => by
    rw [h]
    exact Frees.nothing.congr fun a => (hfree _).symm

/-! ### Buffers -/

/-- The core values at `xs` are disposed of as `spec` does, and the operands that stay are
`left` in number. Only where none does is anything said of the code. -/
def Disposes (M : Machine) (ra : Option Realloc) (g : RGen M.W canon Unit) (xs : List Nat)
    (n left : Nat) (spec : List Word → Exec Event Unit) : Prop :=
  ∃ code outs n', outs.length = left ∧ Emits ra g xs n () outs code n' ∧
    (left = 0 → ∀ ctx env ws, env.length = n → lookup env xs = some (ws.map .word) →
      Computes M.step code ctx env n' (spec ws) fun _ _ => True)

theorem Disposes.congr {left : Nat} {spec spec' : List Word → Exec Event Unit}
    (h : Disposes M ra g xs n left spec)
    (hspec : ∀ ws, ws.length = xs.length → spec ws = spec' ws) :
    Disposes M ra g xs n left spec' := by
  obtain ⟨code, outs, n', hlen, hemits, hcomp⟩ := h
  refine ⟨code, outs, n', hlen, hemits, fun hleft ctx env ws hn hws => ?_⟩
  rw [← hspec ws (by simpa using lookup_length hws)]
  exact hcomp hleft ctx env ws hn hws

/-- A pointer and a length in memory, freed. -/
theorem Frees.loadList {ty : Ty} {offset : ArchitectureSize} {spec : Nat × Nat → Exec Event Unit}
    (halign : M.W.align ty = .pointer)
    (h : ∀ ptr len n, Disposes M ra g [ptr, len] n 0 fun ws => require (pairOf ws) >>= spec) :
    Frees M ra (loadList M.W ty addr offset >>= fun _ => g) addr n
      (fun a => loadPair M.toTarget (a + offset.eval M.p) >>= spec) := by
  have hpointer : IsLoad M (.pointerLoad offset) .pointer M.p id offset :=
    ⟨rfl, rfl, rfl, fun _ _ => rfl⟩
  have hlength : IsLoad M (.lengthLoad (offset + (M.W.align ty).toSize)) .length M.p id
      (offset + (M.W.align ty).toSize) := ⟨rfl, rfl, rfl, fun _ _ => rfl⟩
  obtain ⟨code, outs, n', houts, hemits, hcomp⟩ := h n (n + 1) (n + 2)
  obtain rfl := List.length_eq_zero_iff.mp houts
  have hoffset : ∀ a, a + (offset + (M.W.align ty).toSize).eval M.p =
      a + offset.eval M.p + M.p := by
    intro a
    rw [halign, ArchitectureSize.eval_add, ← Nat.add_assoc]
    simp [Alignment.toSize, ArchitectureSize.eval]
  have hloads : Emits ra (Generator.loadList M.W ty addr offset : RGen M.W canon Unit) [] n ()
      [n, n + 1] _ (n + 2) :=
    (Emits.push addr).then ((hpointer.emits addr).bind ((Emits.push addr).then
      ((hlength.emits addr).frame [n])))
  refine ⟨_, n', hloads.bind hemits, ?_⟩
  intro ctx env a hn haddr
  have hspec : (loadPair M.toTarget (a + offset.eval M.p) >>= spec) =
      ((loadNat (a + offset.eval M.p) M.p >>= fun ptr =>
        (fun len => (ptr, len)) <$> loadNat (a + offset.eval M.p + M.p) M.p) >>= spec) := by
    simp [loadPair]
  beta_reduce
  rw [hspec]
  have hpair : Computes M.step ([Code.Stmt.mk (Op.inst (.pointerLoad offset)) [addr] []] ++
      [Code.Stmt.mk (Op.inst (.lengthLoad (offset + (M.W.align ty).toSize))) [addr] []]) ctx env (n + 2)
      (loadNat (a + offset.eval M.p) M.p >>= fun ptr =>
        (fun len => (ptr, len)) <$> loadNat (a + offset.eval M.p + M.p) M.p)
      fun env' x => lookup env' [n, n + 1] = some ((pairWords x).map .word) := by
    refine Computes.append (hpointer.computes ctx hn haddr) fun env₁ ptr hpre₁ hlen₁ hptr => ?_
    have hlen := hlength.computes ctx hlen₁ (getElem?_mono hpre₁ haddr)
    rw [hoffset] at hlen
    exact hlen.map fun env₂ len hpre₂ hlen₂ hl => lookup_two (getElem?_mono hpre₂ hptr) hl
  refine Computes.append hpair fun env₁ x _ hlen₁ hx => ?_
  have hrun := hcomp rfl ctx env₁ (pairWords x) hlen₁ hx
  simpa [pairWords, pairOf] using hrun

/-- One instruction that takes core values and hands nothing back. -/
theorem Disposes.inst {i : Instruction} {spec : List Word → Exec Event Unit} {blocks : List CBlock}
    {g : RGen M.W canon Unit} (hg : Finishes ra g xs n () xs blocks)
    (hops : xs.length = i.operandsLen M.W)
    (hblocks : blocks.map (·.results.length) = i.blockResults) (hk : i.resultsLen M.W = 0)
    (h : ∀ ctx env ws, env.length = n → ws.length = xs.length → lookup env xs = some (ws.map .word) →
      Agree (fun rs _ => rs = [])
        (M.instSem i ctx (blocks.map (execBlock M.step · env)) (ws.map .word)) (spec ws)) :
    Disposes M ra (g >>= fun _ => emit M.W i) xs n 0 spec := by
  refine ⟨_, [], _, rfl, hg.emit (i := fun _ => i) hops hblocks hk, fun _ ctx env ws hn hws => ?_⟩
  have hagree := (h ctx env ws hn (by simpa using lookup_length hws) hws).mono
    fun rs _ hrs => (⟨by rw [hrs]; rfl, hrs⟩ : rs.length = 0 ∧ rs = [])
  exact (computes_inst (f := fun _ => []) hn hws hagree).mono fun _ _ _ _ _ => trivial

/-- The results of an instruction whose meaning ends in none. -/
theorem agree_unit {x y : Exec Event Unit} (h : Agree Eq x y) :
    Agree (fun rs _ => rs = []) (x >>= fun _ => (pure [] : Machine.Results)) y := by
  have hagree := h.bind (f := fun _ => (pure [] : Machine.Results)) (g := pure)
    (S := fun rs _ => rs = []) fun _ _ _ => Agree.pure rfl
  rwa [bind_pure] at hagree

variable (M canon what ra) in
theorem disposes_string (ptr len n : Nat) :
    Disposes M ra (deallocate M.W what .string : RGen M.W canon Unit) [ptr, len] n 0
      fun ws => require (pairOf ws) >>= fun x => release ⟨x.1, x.2, 1⟩ := by
  rw [deallocate]
  refine Disposes.inst (g := pure ()) Finishes.pure rfl rfl rfl fun ctx env ws _ hlen _ => ?_
  obtain ⟨a, b, rfl⟩ := List.length_eq_two.mp hlen
  have hsem : M.instSem .guestDeallocateString ctx [] [.word a, .word b] =
      (require (Machine.pairOperands (.word a) (.word b)) >>= fun y =>
        release ⟨y.1, y.2, 1⟩ >>= fun _ => pure []) := rfl
  show Agree _ (M.instSem .guestDeallocateString ctx [] [.word a, .word b]) _
  rw [hsem, pairOperands_words]
  exact Agree.require fun y _ => agree_unit (Agree.refl _)

/-! ### Blocks over elements -/

theorem agree_freeBuffer {size align : Nat} {f g : Nat → Exec Event Unit}
    (h : ∀ a, Agree Eq (f a) (g a)) (y : Nat × Nat) :
    Agree Eq (freeBuffer size align f y) (freeBuffer size align g y) := by
  refine Agree.bind (Agree.forM (List.forall₂_same.mpr fun a _ => h a)) ?_
  rintro _ _ -
  exact Agree.refl _

/-- The code `g` records, behind the base pointer it takes. -/
theorem iterBlock_ok {f : Nat → RGen M.W canon Unit} {spec : Nat → Exec Event Unit}
    (h : Frees M ra (f n) n (n + 1) spec) : ∃ code n',
    Finishes ra (block 0 (emit M.W .iterBasePointer >>= fun _ => pop >>= f) :
      RGen M.W canon Unit) [] n () [] [.mk code []] ∧
    ∀ (ctx : Ctx) env a, env.length = n →
      Computes M.step code { ctx with base := some a } env n' (spec a) fun _ _ => True := by
  obtain ⟨code, n', hemits, hcomp⟩ := h
  have hbody : Emits ra (emit M.W .iterBasePointer >>= fun _ => pop >>= f :
      RGen M.W canon Unit) [] n () ([] ++ []) _ n' :=
    (iterBasePointer_emits n).bind ((Emits.pop [] n).then hemits)
  refine ⟨_, n', Finishes.block hbody rfl, ?_⟩
  intro ctx env a hn
  have hspec : spec a = (pure () >>= fun _ => spec a) := rfl
  rw [hspec]
  exact Computes.append (computes_value hn (instSem_iterBasePointer rfl))
    fun env₁ _ _ hlen₁ hptr => hcomp _ env₁ a hlen₁ hptr

theorem disposes_list (id : TypeId) {t : Ty} (ht : FreeOk M canon what ra t) (ptr len n : Nat) :
    Disposes M ra (deallocate M.W what (.list id t) : RGen M.W canon Unit) [ptr, len] n 0
      fun ws => require (pairOf ws) >>= fun x =>
        freeBuffer (M.size t) (M.align t) (fun a => freeMem M.toTarget what t a) x := by
  obtain ⟨code, n', hblock, hcomp⟩ :=
    iterBlock_ok (f := fun addr => deallocateIndirect M.W what t addr default) (ht n (n + 1) default)
  rw [deallocate]
  refine Disposes.inst (hblock.frame [ptr, len]) rfl rfl rfl fun ctx env ws hn hlen _ => ?_
  obtain ⟨a, b, rfl⟩ := List.length_eq_two.mp hlen
  have hsem : ∀ run, M.instSem (.guestDeallocateList t) ctx [run] [.word a, .word b] =
      (require (Machine.pairOperands (.word a) (.word b)) >>= fun y =>
        freeBuffer (M.size t) (M.align t)
          (fun a => Machine.runUnit run { ctx with base := some a }) y >>= fun _ =>
            pure []) := fun run => rfl
  show Agree _ (M.instSem _ ctx [execBlock M.step (.mk code []) env] [.word a, .word b]) _
  rw [hsem, pairOperands_words]
  refine Agree.require fun y _ => agree_unit (agree_freeBuffer (fun e => ?_) y)
  have hrun := hcomp ctx env e hn
  rw [ArchitectureSize.eval_default, Nat.add_zero] at hrun
  exact runUnit_agree hrun

theorem disposes_map (id : TypeId) {k t : Ty} (hM : M.W.Lawful M.p)
    (hk : FreeOk M canon what ra k) (ht : FreeOk M canon what ra t) (ptr len n : Nat) :
    Disposes M ra (deallocate M.W what (.map id k t) : RGen M.W canon Unit) [ptr, len] n 0
      fun ws => require (pairOf ws) >>= fun x =>
        freeBuffer (M.entrySize k t) (M.entryAlign k t)
          (freeEntry (M.toTarget.valueOffset k t) (fun a => freeMem M.toTarget what k a)
            (fun a => freeMem M.toTarget what t a)) x := by
  obtain ⟨offset, hoffset, hvalueOffset⟩ := valueOffset_ok (T := M.toTarget) hM k t
  rw [deallocate, valueOffset, hoffset, orPanic, pure_bind]
  have hentry : Frees M ra (deallocateIndirect M.W what k n default >>= fun _ =>
      deallocateIndirect M.W what t n offset : RGen M.W canon Unit) n (n + 1)
      (freeEntry (M.toTarget.valueOffset k t) (fun a => freeMem M.toTarget what k a)
        (fun a => freeMem M.toTarget what t a)) := by
    refine ((hk n (n + 1) default).bind fun n' => ht n n' offset).congr fun a => ?_
    rw [ArchitectureSize.eval_default, Nat.add_zero, freeEntry, hvalueOffset]
  obtain ⟨code, n', hblock, hcomp⟩ := iterBlock_ok (f := fun addr =>
    deallocateIndirect M.W what k addr default >>= fun _ =>
      deallocateIndirect M.W what t addr offset) hentry
  refine Disposes.inst (hblock.frame [ptr, len]) rfl rfl rfl fun ctx env ws hn hlen _ => ?_
  obtain ⟨a, b, rfl⟩ := List.length_eq_two.mp hlen
  have hsem : ∀ run, M.instSem (.guestDeallocateMap k t) ctx [run] [.word a, .word b] =
      (require (Machine.pairOperands (.word a) (.word b)) >>= fun y =>
        freeBuffer (M.entrySize k t) (M.entryAlign k t)
          (fun a => Machine.runUnit run { ctx with base := some a }) y >>= fun _ =>
            pure []) := fun run => rfl
  show Agree _ (M.instSem _ ctx [execBlock M.step (.mk code []) env] [.word a, .word b]) _
  rw [hsem, pairOperands_words]
  refine Agree.require fun y _ => agree_unit (agree_freeBuffer (fun e => ?_) y)
  exact runUnit_agree (hcomp ctx env e hn)

/-! ### Members and arms -/

theorem freesEach {items : List (ArchitectureSize × Ty)}
    (h : ∀ y ∈ items, FreeOk M canon what ra y.2) (addr n : Nat) (offset : ArchitectureSize) :
    Frees M ra ((items.map fun y => (y.1, y.2, deallocateIndirect M.W what y.2)).forM fun y =>
      (y.2.2 addr (offset + y.1) : RGen M.W canon Unit)) addr n
      fun a => items.forM fun y =>
        freeMem M.toTarget what y.2 (a + offset.eval M.p + y.1.eval M.p) := by
  induction items generalizing n with
  | nil => exact Frees.nothing
  | cons item items ih =>
    have hfirst : Frees M ra (deallocateIndirect M.W what item.2 addr (offset + item.1) :
        RGen M.W canon Unit) addr n
        fun a => freeMem M.toTarget what item.2 (a + offset.eval M.p + item.1.eval M.p) := by
      refine (h item List.mem_cons_self addr n (offset + item.1)).congr fun a => ?_
      rw [ArchitectureSize.eval_add, ← Nat.add_assoc]
    exact hfirst.bind fun n' => ih (fun y hy => h y (List.mem_cons_of_mem _ hy)) n'

theorem frees_fields {ty : Ty} {types : List Ty} (hM : M.W.Lawful M.p) (hs : ty.Supported)
    (hf : ty.fieldTypes = some types) (h : ∀ t ∈ types, FreeOk M canon what ra t) :
    FreeOk M canon what ra ty := by
  have hmem : ∀ y ∈ M.W.fieldOffsets types, FreeOk M canon what ra y.2 := by
    intro y hy
    refine h y.2 ?_
    rw [← hM.fieldOffsets_types types]
    exact List.mem_map_of_mem hy
  refine freeOk_of_needed hs (fun howns a => ?_) fun howns addr n offset => ?_
  · rw [freeMem_fields hf, ifOwns, howns]
    rfl
  · rw [(deallocate_fields_eq what hf).2,
      forEachField_eq (T := M.toTarget) hM types (deallocateIndirect M.W what)]
    refine (freesEach hmem addr n offset).congr fun a => ?_
    rw [freeMem_fields hf, ifOwns, howns, if_pos rfl, freeFields_eq (T := M.toTarget) hM]

/-- What the active case owns is given back. -/
def freePayload (T : Target) (what : Deallocate) (a : Nat) : Option Ty → Exec Event Unit
  | none => pure ()
  | some t => freeMem T what t a

theorem freeArm_payload (T : Target) (tagBytes payloadOffset : Nat) (arms : List (Option Ty))
    (a : Nat) : freeArm tagBytes payloadOffset (arms.map fun o => o.map (freeMem T what)) a =
      (loadNat a tagBytes >>= fun d => require arms[d]? >>= fun arm =>
        freePayload T what (a + payloadOffset) arm) := by
  rw [freeArm]
  congr 1
  funext d
  rw [List.getElem?_map]
  cases arms[d]? with
  | none => rfl
  | some arm =>
    rw [Option.map_some, require_some, require_some, pure_bind, pure_bind]
    cases arm <;> rfl

/-- Picking a block by the discriminant. -/
theorem agree_freeCase {arms : List (Option Ty)} (ctx : Ctx) {blocks : List Machine.BlockRun}
    (x : RVal) (s : Option Ty → Exec Event Unit) (hlen : blocks.length = arms.length)
    (h : ∀ (d : Nat) (b : Machine.BlockRun) (arm : Option Ty), blocks[d]? = some b →
      arms[d]? = some arm → Agree Eq (Machine.runUnit b ctx) (s arm)) :
    Agree (fun rs _ => rs = []) (Machine.freeCase ctx blocks x)
      (require (x.bits .i32) >>= fun d => require arms[d]? >>= s) := by
  rw [Machine.freeCase]
  refine Agree.require fun d _ => ?_
  by_cases hd : d < arms.length
  · have hd' : d < blocks.length := by rw [hlen]; exact hd
    rw [List.getElem?_eq_getElem hd, List.getElem?_eq_getElem hd', require_some, require_some,
      pure_bind, pure_bind]
    exact agree_unit (h d _ _ (List.getElem?_eq_getElem hd') (List.getElem?_eq_getElem hd))
  · rw [List.getElem?_eq_none (by omega), List.getElem?_eq_none (by omega)]
    exact Agree.stuck

/-- The block of the case `arm`, in a scope of `n` values with the address of the variant at
`addr`. -/
def FreeArmBlock (M : Machine) (what : Deallocate) (payloadOffset : ArchitectureSize)
    (addr n : Nat) (arm : Option Ty) (b : CBlock) : Prop :=
  b.results.length = 0 ∧
    ∀ (ctx : Ctx) env a, env.length = n → env[addr]? = some (.ptr a) →
      Agree Eq (Machine.runUnit (execBlock M.step b env) ctx)
        (freePayload M.toTarget what (a + payloadOffset.eval M.p) arm)

theorem deallocateIndirectArm_ok {arm : Option Ty}
    (h : ∀ t, arm = some t → FreeOk M canon what ra t)
    (payloadOffset : ArchitectureSize) (ops : List Nat) (addr n : Nat) :
    ∃ b, FreeArmBlock M what payloadOffset addr n arm b ∧
      Finishes ra (deallocateIndirectArm payloadOffset addr
        (arm.map fun t => (t, deallocateIndirect M.W what t)) : RGen M.W canon Unit) ops n () ops
        [b] := by
  cases arm with
  | none =>
    refine ⟨.mk [] [], ⟨rfl, ?_⟩, Finishes.effectBlock Emits.pure ops⟩
    rintro ctx env a rfl _
    exact runUnit_agree (Computes.nil trivial)
  | some t =>
    obtain ⟨code, n', hemits, hcomp⟩ := h t rfl addr n payloadOffset
    exact ⟨.mk code [], ⟨rfl, fun ctx env a hn haddr => runUnit_agree (hcomp ctx env a hn haddr)⟩,
      Finishes.effectBlock hemits ops⟩

theorem frees_arms {ty : Ty} {arms : List (Option Ty)} (hM : M.W.Lawful M.p) (hs : ty.Supported)
    (ha : ty.arms = some arms) (h : ∀ t, some t ∈ arms → FreeOk M canon what ra t) :
    FreeOk M canon what ra ty := by
  refine freeOk_of_needed hs (fun howns a => ?_) fun howns addr n offset => ?_
  · rw [freeMem_arms ha, ifOwns, howns]
    rfl
  have htag : M.W.armTag ty ≠ .u64 := by
    cases ty with
    | variant id name cases => exact hM.tag_ne_u64 cases.length
    | _ => simp [WitParser.armTag]
  obtain ⟨inst, hinst, hload⟩ := isLoad_intrepr M canon offset htag
  have harm : ∀ arm ∈ arms, ∃ b,
      FreeArmBlock M what (offset + M.W.payloadOffset (M.W.armTag ty) arms) addr (n + 1) arm b ∧
      Finishes ra (deallocateIndirectArm (offset + M.W.payloadOffset (M.W.armTag ty) arms) addr
        (arm.map fun t => (t, deallocateIndirect M.W what t)) : RGen M.W canon Unit) [n] (n + 1) ()
        [n] [b] := by
    intro arm hmem
    refine deallocateIndirectArm_ok (fun t ht => ?_) _ [n] addr (n + 1)
    obtain rfl := ht
    exact h t hmem
  obtain ⟨blocks, hblocks, hfinish⟩ := Finishes.forM arms harm
  have hresults : blocks.map (·.results.length) = arms.map fun _ => 0 :=
    blockResults_of hblocks fun _ _ hb => hb.1
  have hloop : ((arms.map fun o => o.map fun t => (t, deallocateIndirect M.W what t)).forM
      (deallocateIndirectArm (offset + M.W.payloadOffset (M.W.armTag ty) arms) addr) :
        RGen M.W canon PUnit) =
      arms.forM fun arm => deallocateIndirectArm
        (offset + M.W.payloadOffset (M.W.armTag ty) arms) addr
        (arm.map fun t => (t, deallocateIndirect M.W what t)) := by
    simp [List.forM_map]
  rw [← hloop] at hfinish
  have hcase := hfinish.emit (i := fun _ => .guestDeallocateVariant arms.length) (k := 0) rfl
    (by rw [hresults, List.map_const']; rfl) rfl
  have hdisc : Emits ra (loadIntrepr M.W offset (M.W.armTag ty) : RGen M.W canon Unit) [addr] n ()
      [n] [Code.Stmt.mk (Op.inst inst) [addr] []] (n + 1) := hinst ▸ hload.emits addr
  have hall : Emits ra (deallocateIndirectNeeded M.W what ty addr offset : RGen M.W canon Unit) []
      n () [] ([Code.Stmt.mk (Op.inst inst) [addr] []] ++
        [Code.Stmt.mk (Op.inst (.guestDeallocateVariant arms.length)) [n] blocks]) (n + 1 + 0) := by
    rw [(deallocate_arms_eq what ha).2, deallocateIndirectVariant, armTypes_map]
    simp only [bind_assoc]
    exact (Emits.push addr).then (hdisc.bind hcase)
  refine ⟨_, _, hall, ?_⟩
  intro ctx env a hn haddr
  beta_reduce
  rw [freeMem_arms ha, ifOwns, howns, if_pos rfl, freeArm_payload]
  refine Computes.append (hload.computes ctx hn haddr) fun env₁ d hpre henv₁ hd => ?_
  have hspec : (require arms[d]? >>= fun arm => freePayload M.toTarget what
      (a + offset.eval M.p + M.toTarget.payloadOffset ty arms) arm) =
      (require ((RVal.word ⟨.i32, id d⟩).bits .i32) >>= fun d => require arms[d]? >>= fun arm =>
        freePayload M.toTarget what
          (a + offset.eval M.p + M.toTarget.payloadOffset ty arms) arm) := rfl
  have hblen : (blocks.map (execBlock M.step · env₁)).length = arms.length := by
    rw [List.length_map, hblocks.length_eq]
  have hsem : ∀ runs x, M.instSem (.guestDeallocateVariant arms.length) ctx runs [x] =
      Machine.freeCase ctx runs x := fun _ _ => rfl
  have hagree := agree_freeCase ctx (RVal.word ⟨.i32, id d⟩) (fun arm =>
    freePayload M.toTarget what (a + offset.eval M.p + M.toTarget.payloadOffset ty arms) arm)
    hblen fun j b arm hb harm => by
      rw [List.getElem?_map, Option.map_eq_some_iff] at hb
      obtain ⟨blk, hblk, rfl⟩ := hb
      have hrun := (block_at hblocks hblk harm).2 ctx env₁ a henv₁ (getElem?_mono hpre haddr)
      rwa [ArchitectureSize.eval_add, ← Nat.add_assoc] at hrun
  rw [hspec]
  refine (computes_inst (k := 0) (f := fun _ => []) henv₁ (lookup_one hd) ?_).mono
    fun _ _ _ _ _ => trivial
  rw [hsem]
  exact hagree.mono fun rs _ hrs => ⟨by rw [hrs]; rfl, hrs⟩

/-! ### Every type in memory -/

theorem computes_drop {ty : Ty} {y : Nat} {v : Val} {ctx : Ctx} {env : List RVal}
    (hn : env.length = n) (hy : env[y]? = some (.val v)) :
    Computes M.step [Code.Stmt.mk (Op.inst (.dropHandle ty)) [y] []] ctx env (n + 0) (dropVal ty v)
      fun _ _ => True := by
  refine computes_effect hn (lookup_one hy) ?_
  show (require (RVal.val v).asVal >>= fun v => dropVal ty v >>= fun _ => pure []) = _
  rw [RVal.asVal_val, require_some, pure_bind]

/-- An own handle, a future or a stream in memory. -/
theorem frees_owned {ty : Ty} (hs : ty.Supported) (howns : ty.owns what = what.handles)
    (hfree : ∀ a, freeMem M.toTarget what ty a =
      ifOwns what ty (loadHandle a >>= dropVal ty))
    (hneeded : ∀ addr offset, (deallocateIndirectNeeded M.W what ty addr offset :
      RGen M.W canon Unit) = dropOwnedIndirect M.W what ty addr offset)
    (hload : ∀ a, load M.toTarget ty a = loadHandle a) (hread : ReadOk M canon ra ty) :
    FreeOk M canon what ra ty := by
  refine freeOk_of_needed hs (fun hno a => ?_) fun hyes addr n offset => ?_
  · rw [hfree, ifOwns, hno]
    rfl
  obtain ⟨code, y, n', hemits, hcomp⟩ := hread addr n offset
  have hdrop : Emits ra (emit M.W (.dropHandle ty) : RGen M.W canon Unit) [y] n' () []
      [Code.Stmt.mk (Op.inst (.dropHandle ty)) [y] []] (n' + 0) := Emits.emit rfl rfl rfl
  have hall : Emits ra (deallocateIndirectNeeded M.W what ty addr offset : RGen M.W canon Unit) []
      n () [] (code ++ [Code.Stmt.mk (Op.inst (.dropHandle ty)) [y] []]) (n' + 0) := by
    rw [hneeded, dropOwnedIndirect, ← howns, hyes, if_pos rfl]
    exact hemits.bind hdrop
  refine ⟨_, _, hall, fun ctx env a hn haddr => ?_⟩
  beta_reduce
  rw [hfree, ifOwns, hyes, if_pos rfl, ← hload]
  exact Computes.append (hcomp ctx env a hn haddr) fun env₁ v _ hlen hv => computes_drop hlen hv

variable (canon what ra) in
/-- The code `deallocateIndirect` records does what the canonical ABI says. -/
theorem free_ok (hM : M.W.Lawful M.p) {ty : Ty} (hs : ty.Supported) :
    FreeOk M canon what ra ty := by
  induction ty using Ty.ind with
  | prim q =>
    exact freeOk_of_keeps hs (fun a => by rw [freeMem.eq_def]) fun _ _ => by
      rw [deallocateIndirectNeeded]
  | string =>
    refine freeOk_of_needed hs (fun hno => by simp [Ty.owns] at hno) fun _ addr n offset => ?_
    rw [deallocateIndirectNeeded]
    refine (Frees.loadList hM.align_string (disposes_string M canon what ra)).congr fun a => ?_
    rw [freeMem]
  | errorContext =>
    exact freeOk_of_keeps hs (fun a => by rw [freeMem.eq_def]) fun _ _ => by
      rw [deallocateIndirectNeeded]
  | type id t ih =>
    have howns : (Ty.type id t).owns what = t.owns what := by rw [Ty.owns]
    refine freeOk_of_needed hs (fun hno a => ?_) fun hyes addr n offset => ?_
    · rw [freeMem, ifOwns, hno]
      rfl
    · rw [deallocateIndirectNeeded]
      refine (ih hs.of_type addr n offset).congr fun a => ?_
      rw [freeMem, ifOwns, hyes]
      rfl
  | list id t ih =>
    refine freeOk_of_needed hs (fun hno => by simp [Ty.owns] at hno) fun _ addr n offset => ?_
    rw [deallocateIndirectNeeded]
    refine (Frees.loadList (hM.align_list id t) (disposes_list id (ih hs.of_list))).congr
      fun a => ?_
    rw [freeMem]
  | map id k t ihk iht =>
    refine freeOk_of_needed hs (fun hno => by simp [Ty.owns] at hno) fun _ addr n offset => ?_
    rw [deallocateIndirectNeeded]
    refine (Frees.loadList (hM.align_map id k t)
      (disposes_map id hM (ihk hs.of_map.1) (iht hs.of_map.2))).congr fun a => ?_
    rw [freeMem]
  | fixedLengthList id t k ih =>
    exact freeOk_of_keeps hs (fun a => by rw [freeMem.eq_def]) fun _ _ => by
      rw [deallocateIndirectNeeded]
  | fields ty types hf ih =>
    exact frees_fields hM hs hf fun t ht => ih t ht (hs.of_fields hf t ht)
  | flags id name names =>
    exact freeOk_of_keeps hs (fun a => by rw [freeMem.eq_def]) fun _ _ => by
      rw [deallocateIndirectNeeded]
  | arms ty arms ha ih =>
    exact frees_arms hM hs ha fun t ht => ih t ht ((hs.of_arms ha).2 t ht)
  | enum id name cases' =>
    exact freeOk_of_keeps hs (fun a => by rw [freeMem.eq_def]) fun _ _ => by
      rw [deallocateIndirectNeeded]
  | handle id hd name =>
    cases hd with
    | own r =>
      exact frees_owned hs (by rw [Ty.owns]) (fun a => by rw [freeMem])
        (fun _ _ => by rw [deallocateIndirectNeeded]) (fun a => by rw [load])
        (lift_and_read hM hs).2
    | borrow r =>
      refine freeOk_of_needed hs (fun _ a => by rw [freeMem.eq_def]) fun hyes => ?_
      simp [Ty.owns] at hyes
  | future id t =>
    exact frees_owned hs (by rw [Ty.owns]) (fun a => by rw [freeMem])
      (fun _ _ => by rw [deallocateIndirectNeeded]) (fun a => by rw [load])
      (lift_and_read hM hs).2
  | stream id t =>
    exact frees_owned hs (by rw [Ty.owns]) (fun a => by rw [freeMem])
      (fun _ _ => by rw [deallocateIndirectNeeded]) (fun a => by rw [load])
      (lift_and_read hM hs).2
  | resource id => exact absurd hs Ty.not_supported_resource
  | unknown id => exact absurd hs Ty.not_supported_unknown

/-! ## Freeing core values -/

/-- Disposing of every value of a type, as the canonical ABI says if no operand stays. -/
def DisposeOk (M : Machine) (canon : Ty → Bool) (what : Deallocate) (ra : Option Realloc)
    (t : Ty) : Prop :=
  ∀ xs n, xs.length = (M.W.pushFlat t).length →
    Disposes M ra (deallocate M.W what t : RGen M.W canon Unit) xs n (M.W.leftover t)
      (freeFlat M.toTarget what t)

/-- One operand is popped, whatever its type flattens to. -/
theorem disposes_discard {left : Nat} (hlen : xs.length = left + 1) :
    Disposes M ra (discard : RGen M.W canon Unit) xs n left fun _ => pure () := by
  obtain ⟨init, x, rfl⟩ : ∃ init x, xs = init ++ [x] :=
    ⟨xs.dropLast, xs.getLast (by rintro rfl; simp at hlen), (List.dropLast_append_getLast _).symm⟩
  refine ⟨[], init, n, by simpa using hlen, (Emits.pop init x).then Emits.pure, ?_⟩
  rintro _ ctx env ws rfl _
  exact Computes.nil trivial

theorem disposes_owned {ty : Ty} (hflat : (M.W.pushFlat ty).length = 1)
    (hleft : M.W.leftover ty = 0)
    (hg : (deallocate M.W what ty : RGen M.W canon Unit) = dropOwned M.W what ty)
    (hfree : ∀ ws, freeFlat M.toTarget what ty ws = freeHandle what ty ws)
    (hlift : LiftOk M canon ra ty)
    (hliftFlat : ∀ ws, liftFlat M.toTarget ty ws = liftHandle ws) :
    DisposeOk M canon what ra ty := by
  intro xs n hlen
  rw [hg, hleft, dropOwned]
  split
  · next hyes =>
      obtain ⟨code, y, n', hemits, hcomp⟩ := hlift xs n hlen
      have hdrop : Emits ra (emit M.W (.dropHandle ty) : RGen M.W canon Unit) [y] n' () []
          [Code.Stmt.mk (Op.inst (.dropHandle ty)) [y] []] (n' + 0) := Emits.emit rfl rfl rfl
      refine ⟨_, [], _, rfl, hemits.bind hdrop, fun _ ctx env ws hn hws => ?_⟩
      rw [hfree, freeHandle, if_pos hyes, ← hliftFlat]
      exact Computes.append (hcomp ctx env ws hn hws) fun env₁ v _ henv₁ hv =>
        computes_drop henv₁ hv
  · next hno =>
      refine (disposes_discard (by omega)).congr fun ws _ => ?_
      rw [hfree, freeHandle, if_neg hno]

/-- The loop of `flatForEachRecordType`. -/
theorem disposesEach {types : List Ty}
    (h : ∀ t ∈ types, DisposeOk M canon what ra t ∧ (M.W.pushFlat t).length ≤ maxFlatParams)
    {args : List Nat} (hlen : args.length = (types.map M.W.pushFlat).flatten.length) (n : Nat) :
    ∃ code outs n', outs.length = (types.map M.W.leftover).sum ∧
      Emits ra (forEachRecordType M.W (types.map fun t => (t, deallocate M.W what t)) args :
        RGen M.W canon Unit) [] n () outs code n' ∧
      ((types.map M.W.leftover).sum = 0 → ∀ ctx env ws, env.length = n →
        lookup env args = some (ws.map .word) → Computes M.step code ctx env n'
          ((types.zip (chunks (types.map fun t => (M.W.pushFlat t).length) ws)).forM fun y =>
            freeFlat M.toTarget what y.1 y.2) fun _ _ => True) := by
  induction types generalizing args n with
  | nil =>
    refine ⟨[], [], n, rfl, Emits.pure, ?_⟩
    rintro _ ctx env ws rfl _
    exact Computes.nil trivial
  | cons t types ih =>
    obtain ⟨hok, hmax⟩ := h t List.mem_cons_self
    rw [List.map_cons, List.flatten_cons, List.length_append] at hlen
    have hle : (M.W.pushFlat t).length ≤ args.length := by omega
    obtain ⟨code₁, outs₁, n₁, hlen₁, hemits₁, hcomp₁⟩ :=
      hok (args.take (M.W.pushFlat t).length) n (by rw [List.length_take, Nat.min_eq_left hle])
    have hrestLen : (args.drop (M.W.pushFlat t).length).length =
        (types.map M.W.pushFlat).flatten.length := by rw [List.length_drop]; omega
    obtain ⟨code₂, outs₂, n₂, hlen₂, hemits₂, hcomp₂⟩ :=
      ih (fun t' ht' => h t' (List.mem_cons_of_mem _ ht')) hrestLen n₁
    refine ⟨code₁ ++ code₂, outs₁ ++ outs₂, n₂, by simp [hlen₁, hlen₂], ?_, ?_⟩
    · rw [List.map_cons, forEachRecordType]
      exact (Emits.flatTypes hmax).then ((Emits.slice hle).then ((Emits.extend _).then
        (hemits₁.bind (hemits₂.above outs₁))))
    · intro hzero ctx env ws hn hws
      rw [List.map_cons, List.sum_cons] at hzero
      have hfirst := lookup_take hws (M.W.pushFlat t).length
      rw [← List.map_take] at hfirst
      rw [List.map_cons, chunks, List.zip_cons_cons]
      refine Computes.append (hcomp₁ (by omega) ctx env _ hn hfirst) fun env₁ _ hpre₁ henv₁ _ => ?_
      have hrest := lookup_drop (lookup_mono hpre₁ hws) (M.W.pushFlat t).length
      rw [← List.map_drop] at hrest
      exact hcomp₂ (by omega) ctx env₁ _ henv₁ hrest

theorem disposes_fields {ty : Ty} {types : List Ty} (hM : M.W.Lawful M.p)
    (hf : ty.fieldTypes = some types) (hflat : (M.W.pushFlat ty).length ≤ maxFlatParams)
    (h : ∀ t ∈ types, DisposeOk M canon what ra t ∧ (M.W.pushFlat t).length ≤ maxFlatParams) :
    DisposeOk M canon what ra ty := by
  intro xs n hlen
  have hargs : xs.length = (types.map M.W.pushFlat).flatten.length := by
    rw [hlen, hM.flat_fields ty types hf]
  obtain ⟨code, outs, n', houts, hemits, hcomp⟩ := disposesEach h hargs n
  have hall : Emits ra (deallocate M.W what ty : RGen M.W canon Unit) xs n () outs code n' := by
    rw [(deallocate_fields_eq what hf).1]
    exact (Emits.flatTypes hflat).then ((Emits.drain hlen).then hemits)
  rw [leftover_fields hf]
  refine ⟨code, outs, n', houts, hall, fun hzero ctx env ws hn hws => ?_⟩
  have hspec : freeFlat M.toTarget what ty ws =
      (types.zip (chunks (types.map fun t => (M.W.pushFlat t).length) ws)).forM fun y =>
        freeFlat M.toTarget what y.1 y.2 := by
    rw [freeFlat_fields hf, freeFlatFields]
    simp [List.zip_map_left, List.forM_map, Function.comp_def]
  rw [hspec]
  exact hcomp hzero ctx env ws hn hws

/-- What the active case owns is given back. -/
def freeFlatPayload (T : Target) (what : Deallocate) (slots : List WasmType) (ws : List Word) :
    Option Ty → Exec Event Unit
  | none => pure ()
  | some t => unjoin T slots t ws >>= freeFlat T what t

theorem freeFlat_payload {T : Target} {ty : Ty} {arms : List (Option Ty)}
    (ha : ty.arms = some arms) (d : Word) (ws : List Word) : freeFlat T what ty (d :: ws) =
      (require (bitsOf .i32 [d]) >>= fun i => require arms[i]? >>= fun arm =>
        freeFlatPayload T what (T.slotTys ty) ws arm) := by
  rw [freeFlat_arms ha, freeFlatArm, List.take_succ_cons, List.take_zero, List.tail_cons]
  congr 1
  funext i
  rw [List.getElem?_map]
  cases arms[i]? with
  | none => rfl
  | some arm =>
    rw [Option.map_some, require_some, require_some, pure_bind, pure_bind]
    cases arm <;> rfl

/-- The operands an arm leaves on the stack. -/
def WitParser.armLeftover (W : WitParser) (arm : Option Ty) : Nat := arm.elim 0 W.leftover

/-- The block of the case `arm`, in a scope of `n` values with the slots at `inputs`. -/
def DisposeArmBlock (M : Machine) (what : Deallocate) (slots : List WasmType) (inputs : List Nat)
    (n : Nat) (arm : Option Ty) (b : CBlock) : Prop :=
  b.results.length = 0 ∧
    (M.W.armLeftover arm = 0 → ∀ (ctx : Ctx) env ws, env.length = n →
      lookup env inputs = some (ws.map .word) →
      Agree Eq (Machine.runUnit (execBlock M.step b env) ctx)
        (freeFlatPayload M.toTarget what slots ws arm))

theorem disposeArm_ok (hM : M.W.Lawful M.p) {slots : List WasmType} {arm : Option Ty}
    (harm : ∀ t, arm = some t → DisposeOk M canon what ra t ∧
      (M.W.pushFlat t).length ≤ maxFlatParams ∧ (M.W.pushFlat t).length ≤ slots.length ∧
      List.Forall₂ WasmType.JoinsInto (M.W.pushFlat t) (slots.take (M.W.pushFlat t).length))
    {inputs : List Nat} (hinputs : inputs.length = slots.length) (n : Nat) :
    ∃ b outs, outs.length = M.W.armLeftover arm ∧ DisposeArmBlock M what slots inputs n arm b ∧
      Finishes ra (flatForVariantArm M.W (.i32 :: slots) false inputs
        (arm.map fun t => (t, deallocate M.W what t)) : RGen M.W canon Unit) [] n () outs [b] := by
  cases arm with
  | none =>
    refine ⟨.mk [] [], [], rfl, ⟨rfl, ?_⟩, Finishes.effectBlock Emits.pure []⟩
    rintro _ ctx env ws rfl _
    exact runUnit_agree (Computes.nil trivial)
  | some t =>
    obtain ⟨hok, hmax, hfit, hjoin⟩ := harm t rfl
    obtain ⟨casts, hcasts, hcastsLen⟩ := castAll_outOf hjoin
    have htake : (inputs.take (M.W.pushFlat t).length).length = (M.W.pushFlat t).length := by
      rw [List.length_take, hinputs, Nat.min_eq_left hfit]
    obtain ⟨code₁, outs₁, n₁, hlen₁, hemits₁, hcomp₁⟩ :=
      emitCasts_ok canon ra hM.width hcasts (htake.trans hcastsLen.symm) n
    obtain ⟨code₂, outs, n₂, houts, hemits₂, hcomp₂⟩ := hok outs₁ n₁ (hlen₁.trans htake)
    refine ⟨.mk (code₁ ++ code₂) [], outs, houts, ⟨rfl, ?_⟩, Finishes.unitBlock
      ((Emits.flatTypes hmax).then ((Emits.slice (hinputs ▸ hfit)).then
        ((Emits.extend _).then (hemits₁.bind hemits₂))))⟩
    intro hzero ctx env ws hn hws
    have hfirst := lookup_take hws (M.W.pushFlat t).length
    rw [← List.map_take] at hfirst
    have hcast := hcomp₁ ctx env _ hn hfirst
    rw [castWords_take] at hcast
    exact runUnit_agree (Computes.append hcast fun env₁ ws' _ henv₁ hws' =>
      hcomp₂ hzero ctx env₁ ws' henv₁ hws')

theorem disposes_arms {ty : Ty} {arms : List (Option Ty)} (hM : M.W.Lawful M.p)
    (ha : ty.arms = some arms) (hflat : (M.W.pushFlat ty).length ≤ maxFlatParams)
    (h : ∀ t, some t ∈ arms → DisposeOk M canon what ra t) : DisposeOk M canon what ra ty := by
  intro xs n hlen
  obtain ⟨slots, hslots, hjoin⟩ := hM.flat_arms ty arms ha
  have hslotTys : M.toTarget.slotTys ty = slots := by rw [Target.slotTys, hslots, List.tail_cons]
  rw [hslots, List.length_cons] at hlen
  obtain ⟨d, inputs, rfl⟩ := List.exists_cons_of_length_eq_add_one hlen
  have hinputs : inputs.length = slots.length := by simpa using hlen
  have harm : ∀ arm ∈ arms, ∃ b outs, outs.length = M.W.armLeftover arm ∧
      DisposeArmBlock M what slots inputs n arm b ∧
      Finishes ra (flatForVariantArm M.W (.i32 :: slots) false inputs
        (arm.map fun t => (t, deallocate M.W what t)) : RGen M.W canon Unit) [] n () outs [b] := by
    intro arm hmem
    refine disposeArm_ok hM (fun t ht => ?_) hinputs n
    obtain rfl := ht
    obtain ⟨hfit, hjoins⟩ := hjoin t hmem
    refine ⟨h t hmem, ?_, hfit, hjoins⟩
    rw [hslots, List.length_cons] at hflat
    omega
  obtain ⟨blocks, outs, houts, hblocks, hfinish⟩ := Finishes.forM_leaving arms harm
  have hresults : blocks.map (·.results.length) = arms.map fun _ => 0 :=
    blockResults_of hblocks fun _ _ hb => hb.1
  -- the instruction takes the operand on top: the discriminant, if no arm left anything
  obtain ⟨init, last, htop⟩ : ∃ init last, [d] ++ outs = init ++ [last] :=
    ⟨_, _, (List.dropLast_append_getLast (by simp : [d] ++ outs ≠ [])).symm⟩
  have hall : Finishes ra (flatForEachVariantArm M.W ty false (arms.map fun o => o.map fun t =>
      (t, deallocate M.W what t)) : RGen M.W canon Unit) (d :: inputs) n () (init ++ [last])
        ([] ++ ([] ++ blocks)) := by
    have hflatTypes : Finishes ra (flatTypes M.W ty : RGen M.W canon (List WasmType))
        (d :: inputs) n (.i32 :: slots) (d :: inputs) [] := by
      have hft : Finishes ra (flatTypes M.W ty : RGen M.W canon (List WasmType)) (d :: inputs) n
          (M.W.pushFlat ty) (d :: inputs) [] := Finishes.flatTypes hflat
      rwa [hslots] at hft
    have hdrain : Finishes ra (drain ((WasmType.i32 :: slots).length - 1) :
        RGen M.W canon (List Nat)) (d :: inputs) n inputs [d] [] := by
      have hinner : Finishes ra (drain ((WasmType.i32 :: slots).length - 1) :
          RGen M.W canon (List Nat)) inputs n inputs [] [] := Finishes.drain hinputs
      exact hinner.frame [d]
    have hloop : ((arms.map fun o => o.map fun t => (t, deallocate M.W what t)).forM
        (flatForVariantArm M.W (.i32 :: slots) false inputs) : RGen M.W canon PUnit) =
        arms.forM fun arm => flatForVariantArm M.W (.i32 :: slots) false inputs
          (arm.map fun t => (t, deallocate M.W what t)) := by
      simp [List.forM_map]
    have hframe := hfinish.frame [d]
    rw [← hloop, htop, List.append_nil] at hframe
    exact hflatTypes.bind (hdrain.bind hframe)
  have hemits := hall.emit_above (i := fun _ => .guestDeallocateVariant arms.length) (k := 0) rfl
    (by rw [List.nil_append, List.nil_append, hresults, List.map_const']; rfl) rfl
  rw [← (deallocate_arms_eq what ha).1, List.nil_append, List.nil_append] at hemits
  have hleft : init.length = M.W.leftover ty := by
    have hcount := congrArg List.length htop
    rw [leftover_arms ha]
    simp only [List.length_append, List.length_singleton, houts] at hcount
    have hsum : (arms.map M.W.armLeftover).sum = (arms.map fun o => o.elim 0 M.W.leftover).sum := rfl
    omega
  refine ⟨_, init ++ List.range' n 0, _, by simpa using hleft, hemits, ?_⟩
  intro hzero ctx env ws hn hws
  -- nothing was left by an arm, so what the instruction takes is the discriminant
  obtain rfl : init = [] := List.length_eq_zero_iff.mp (hleft.trans hzero)
  have hlen0 := congrArg List.length htop
  obtain rfl : outs = [] := by
    rw [List.length_append, List.nil_append] at hlen0
    exact List.length_eq_zero_iff.mp (by simpa using hlen0)
  obtain rfl : d = last := by simpa using htop
  obtain ⟨w, us, rfl⟩ := List.exists_cons_of_length_eq_add_one
    ((by simpa using lookup_length hws : ws.length = inputs.length + 1))
  rw [List.map_cons] at hws
  obtain ⟨hd, hus⟩ := lookup_cons_inv hws
  have hzeros : ∀ arm ∈ arms, M.W.armLeftover arm = 0 := by
    intro arm harm
    rw [leftover_arms ha] at hzero
    exact List.sum_eq_zero_iff_forall_eq_nat.mp hzero _ (List.mem_map_of_mem harm)
  have hblen : (blocks.map (execBlock M.step · env)).length = arms.length := by
    rw [List.length_map, hblocks.length_eq]
  have hagree := agree_freeCase ctx (RVal.word w) (fun arm =>
    freeFlatPayload M.toTarget what slots us arm) hblen fun j b arm hb harm => by
      rw [List.getElem?_map, Option.map_eq_some_iff] at hb
      obtain ⟨blk, hblk, rfl⟩ := hb
      exact (block_at hblocks hblk harm).2 (hzeros arm (List.mem_of_getElem? harm)) ctx env us hn hus
  have hsem : ∀ runs x, M.instSem (.guestDeallocateVariant arms.length) ctx runs [x] =
      Machine.freeCase ctx runs x := fun _ _ => rfl
  rw [freeFlat_payload ha, hslotTys]
  refine (computes_inst (k := 0) (f := fun _ => []) hn (lookup_one hd) ?_).mono
    fun _ _ _ _ _ => trivial
  rw [hsem]
  exact hagree.mono fun rs _ hrs => ⟨by rw [hrs]; rfl, hrs⟩

theorem leftover_of_plain {W : WitParser} {ty : Ty} (hleaves : ty.flatLeaves = [ty])
    (h : W.moreWords ty = 0) : W.leftover ty = 0 := by
  rw [WitParser.leftover, hleaves, List.map_singleton, List.sum_singleton, h]

/-- A leaf that one core value stands for and nothing is done about. -/
theorem disposeOk_discard {ty : Ty} (hlen : (M.W.pushFlat ty).length = M.W.leftover ty + 1)
    (hg : (deallocate M.W what ty : RGen M.W canon Unit) = discard)
    (hfree : ∀ ws, freeFlat M.toTarget what ty ws = pure ()) : DisposeOk M canon what ra ty := by
  intro xs n hxs
  rw [hg]
  exact (disposes_discard (hxs.trans hlen)).congr fun ws _ => (hfree ws).symm

variable (canon what ra) in
/-- The code `deallocate` records for a type without fixed-length lists among its core values. -/
theorem dispose_ok (hM : M.W.Lawful M.p) {ty : Ty} (hv : ty.Valid) (hfixed : ty.flatFixed = false)
    (hflat : (M.W.pushFlat ty).length ≤ maxFlatParams) : DisposeOk M canon what ra ty := by
  induction ty using Ty.ind with
  | prim q =>
    have hleft : M.W.leftover (.prim q) = 0 :=
      leftover_of_plain (by rw [Ty.flatLeaves.eq_def]) rfl
    exact disposeOk_discard (by rw [hM.flat_prim, hleft]; rfl) (by rw [deallocate])
      fun ws => by rw [freeFlat.eq_def]
  | string =>
    have hleft : M.W.leftover .string = 0 :=
      leftover_of_plain (by rw [Ty.flatLeaves.eq_def]) rfl
    intro xs n hlen
    rw [hM.flat_string] at hlen
    obtain ⟨ptr, len, rfl⟩ := List.length_eq_two.mp hlen
    rw [hleft]
    exact (disposes_string M canon what ra ptr len n).congr fun ws _ => by rw [freeFlat]
  | errorContext =>
    have hleft : M.W.leftover .errorContext = 0 :=
      leftover_of_plain (by rw [Ty.flatLeaves.eq_def]) rfl
    exact disposeOk_discard (by rw [hM.flat_errorContext, hleft]; rfl) (by rw [deallocate])
      fun ws => by rw [freeFlat.eq_def]
  | type id t ih =>
    have hleaves : (Ty.type id t).flatLeaves = t.flatLeaves := by rw [Ty.flatLeaves]
    rw [Ty.flatFixed, hleaves] at hfixed
    rw [hM.flat_type] at hflat
    intro xs n hlen
    rw [hM.flat_type] at hlen
    rw [deallocate, WitParser.leftover, hleaves]
    exact (ih hv.of_type hfixed hflat xs n hlen).congr fun ws _ => by rw [freeFlat]
  | list id t ih =>
    have hleft : M.W.leftover (.list id t) = 0 :=
      leftover_of_plain (by rw [Ty.flatLeaves.eq_def]) rfl
    intro xs n hlen
    rw [hM.flat_list] at hlen
    obtain ⟨ptr, len, rfl⟩ := List.length_eq_two.mp hlen
    rw [hleft]
    exact (disposes_list id (free_ok canon what ra hM hv.of_list.supported) ptr len n).congr fun ws _ => by
      rw [freeFlat]
  | map id k t ihk iht =>
    have hleft : M.W.leftover (.map id k t) = 0 :=
      leftover_of_plain (by rw [Ty.flatLeaves.eq_def]) rfl
    obtain ⟨hk, ht⟩ := hv.of_map
    intro xs n hlen
    rw [hM.flat_map] at hlen
    obtain ⟨ptr, len, rfl⟩ := List.length_eq_two.mp hlen
    rw [hleft]
    exact (disposes_map id hM (free_ok canon what ra hM hk.supported) (free_ok canon what ra hM ht.supported) ptr len n).congr
      fun ws _ => by rw [freeFlat]
  | fixedLengthList id t k ih =>
    have hleaves : (Ty.fixedLengthList id t k).flatLeaves = [.fixedLengthList id t k] := by
      rw [Ty.flatLeaves.eq_def]
    rw [Ty.flatFixed, hleaves] at hfixed
    cases hfixed
  | fields ty types hf ih =>
    rw [flatFixed_fields hf] at hfixed
    refine disposes_fields hM hf hflat fun t ht => ?_
    rw [hM.flat_fields ty types hf] at hflat
    have hmax : (M.W.pushFlat t).length ≤ maxFlatParams :=
      Nat.le_trans (List.sublist_flatten_of_mem (List.mem_map_of_mem ht)).length_le hflat
    exact ⟨ih t ht (hv.of_fields hf t ht) (by simpa using List.any_eq_false.mp hfixed t ht) hmax,
      hmax⟩
  | flags id name names =>
    have hleft : M.W.leftover (.flags id name names) =
        (M.W.flagsRepr names.length).count - 1 := by
      have hleaves : (Ty.flags id name names).flatLeaves = [.flags id name names] := by
        rw [Ty.flatLeaves.eq_def]
      rw [WitParser.leftover, hleaves, List.map_singleton, List.sum_singleton]
      rfl
    refine disposeOk_discard ?_ (by rw [deallocate]) fun ws => by rw [freeFlat.eq_def]
    have hfit := hM.flags_fit names.length
    have hcount : (M.W.flagsRepr names.length).count ≠ 0 := by
      intro hzero
      rw [hzero, Nat.mul_zero, Nat.mul_zero] at hfit
      exact hv.flags_ne_nil (List.length_eq_zero_iff.mp (Nat.le_zero.mp hfit))
    rw [hM.flat_flags, List.length_replicate, hleft]
    omega
  | arms ty arms ha ih =>
    obtain ⟨slots, hslots, hjoin⟩ := hM.flat_arms ty arms ha
    rw [flatFixed_arms ha] at hfixed
    refine disposes_arms hM ha hflat fun t ht => ?_
    refine ih t ht ((hv.of_arms ha).2 t ht)
      (by simpa using List.any_eq_false.mp hfixed (some t) ht) ?_
    rw [hslots, List.length_cons] at hflat
    exact Nat.le_trans (hjoin t ht).1 (Nat.le_of_succ_le hflat)
  | enum id name cases' =>
    have hleft : M.W.leftover (.enum id name cases') = 0 :=
      leftover_of_plain (by rw [Ty.flatLeaves.eq_def]) rfl
    exact disposeOk_discard (by rw [hM.flat_enum, hleft]; rfl) (by rw [deallocate])
      fun ws => by rw [freeFlat.eq_def]
  | handle id hd name =>
    have hleft : M.W.leftover (.handle id hd name) = 0 :=
      leftover_of_plain (by rw [Ty.flatLeaves.eq_def]) rfl
    have hone : (M.W.pushFlat (.handle id hd name)).length = 1 := by rw [hM.flat_handle]; rfl
    cases hd with
    | own r =>
      exact disposes_owned hone hleft (by rw [deallocate]) (fun ws => by rw [freeFlat])
        ((lift_and_read hM hv.supported).1 hv hflat) fun ws => by rw [liftFlat]
    | borrow r =>
      exact disposeOk_discard (by rw [hone, hleft]) (by rw [deallocate])
        fun ws => by rw [freeFlat.eq_def]
  | future id t =>
    have hleft : M.W.leftover (.future id t) = 0 :=
      leftover_of_plain (by rw [Ty.flatLeaves.eq_def]) rfl
    exact disposes_owned (by rw [hM.flat_future]; rfl) hleft (by rw [deallocate])
      (fun ws => by rw [freeFlat]) ((lift_and_read hM hv.supported).1 hv hflat)
      fun ws => by rw [liftFlat]
  | stream id t =>
    have hleft : M.W.leftover (.stream id t) = 0 :=
      leftover_of_plain (by rw [Ty.flatLeaves.eq_def]) rfl
    exact disposes_owned (by rw [hM.flat_stream]; rfl) hleft (by rw [deallocate])
      (fun ws => by rw [freeFlat]) ((lift_and_read hM hv.supported).1 hv hflat)
      fun ws => by rw [liftFlat]
  | resource id => exact absurd hv.supported Ty.not_supported_resource
  | unknown id => exact absurd hv.supported Ty.not_supported_unknown

/-! ## Where nothing is recorded -/

/-- Wherever it runs, `g` stops with a panic. -/
def Stops (M : Machine) (ra : Option Realloc) (g : RGen M.W canon Unit) (xs : List Nat) (n : Nat) :
    Prop :=
  ∀ base code₀ outer rp, ∃ e, g (state (base ++ xs) code₀ [] n outer rp ra) = .error e

/-- The same where finished blocks are waiting. -/
def StopsIn (M : Machine) (ra : Option Realloc) (g : RGen M.W canon PUnit) (xs : List Nat)
    (n : Nat) : Prop :=
  ∀ base code₀ pending outer rp, ∃ e, g (state (base ++ xs) code₀ pending n outer rp ra) = .error e

theorem Stops.after {α : Type} {g : RGen M.W canon α} {f : α → RGen M.W canon Unit}
    {ops outs : List Nat} {x : α} {code : List CStmt} {n₁ : Nat}
    (h : Emits ra g ops n x outs code n₁) (h' : Stops M ra (f x) outs n₁) :
    Stops M ra (g >>= f) ops n := by
  intro base code₀ outer rp
  rw [bind_ok (h base code₀ outer rp)]
  exact h' base (code₀ ++ code) outer rp

theorem Stops.first {f : Unit → RGen M.W canon Unit} (h : Stops M ra g xs n) :
    Stops M ra (g >>= f) xs n := by
  intro base code₀ outer rp
  obtain ⟨e, he⟩ := h base code₀ outer rp
  exact ⟨e, bind_error he⟩

theorem Stops.above (h : Stops M ra g xs n) (below : List Nat) : Stops M ra g (below ++ xs) n := by
  intro base code₀ outer rp
  rw [← List.append_assoc]
  exact h (base ++ below) code₀ outer rp

theorem StopsIn.block {k : Nat} (h : Stops M ra g xs n) : StopsIn M ra (Generator.block k g) xs n := by
  intro base code₀ pending outer rp
  obtain ⟨e, he⟩ := h base [] (⟨code₀, pending, n⟩ :: outer) rp
  exact ⟨e, by rw [Generator.block, bind_ok pushBlock_ok, bind_error he]⟩

theorem StopsIn.above {g : RGen M.W canon PUnit} (h : StopsIn M ra g xs n) (below : List Nat) :
    StopsIn M ra g (below ++ xs) n := by
  intro base code₀ pending outer rp
  rw [← List.append_assoc]
  exact h (base ++ below) code₀ pending outer rp

theorem StopsIn.after {α : Type} {g : RGen M.W canon α} {f : α → RGen M.W canon PUnit}
    {ops outs : List Nat} {x : α} {blocks : List CBlock}
    (h : Finishes ra g ops n x outs blocks) (h' : StopsIn M ra (f x) outs n) :
    StopsIn M ra (g >>= f) ops n := by
  intro base code₀ pending outer rp
  rw [bind_ok (h base code₀ pending outer rp)]
  exact h' base code₀ (pending ++ blocks) outer rp

/-- A loop stops where its first turn that stops is. -/
theorem StopsIn.forM {ι : Type} {f : ι → RGen M.W canon PUnit} {xs : List ι} (stops : ι → Bool)
    (hyes : xs.any stops = true)
    (h : ∀ i ∈ xs, if stops i then StopsIn M ra (f i) [] n
      else ∃ outs blocks, Finishes ra (f i) [] n ⟨⟩ outs blocks) :
    StopsIn M ra (xs.forM f) [] n := by
  induction xs with
  | nil => cases hyes
  | cons i xs ih =>
    have hi := h i List.mem_cons_self
    rw [List.any_cons] at hyes
    split at hi
    · intro base code₀ pending outer rp
      obtain ⟨e, he⟩ := hi base code₀ pending outer rp
      exact ⟨e, bind_error he⟩
    · next hno =>
        obtain ⟨outs, blocks, hfinish⟩ := hi
        have hrest := ih (by simpa [hno] using hyes) fun j hj => h j (List.mem_cons_of_mem _ hj)
        have habove := hrest.above outs
        rw [List.append_nil] at habove
        exact StopsIn.after hfinish habove

/-- The loop of `flatForEachRecordType` stops at its first fixed-length list. -/
theorem stopsEach {types : List Ty} (hyes : types.any Ty.flatFixed = true)
    (h : ∀ t ∈ types, (M.W.pushFlat t).length ≤ maxFlatParams ∧
      if t.flatFixed then ∀ xs n, xs.length = (M.W.pushFlat t).length →
        Stops M ra (deallocate M.W what t : RGen M.W canon Unit) xs n
      else DisposeOk M canon what ra t)
    {args : List Nat} (hlen : args.length = (types.map M.W.pushFlat).flatten.length) (n : Nat) :
    Stops M ra (forEachRecordType M.W (types.map fun t => (t, deallocate M.W what t)) args :
      RGen M.W canon Unit) [] n := by
  induction types generalizing args n with
  | nil => cases hyes
  | cons t types ih =>
    obtain ⟨hmax, hi⟩ := h t List.mem_cons_self
    rw [List.map_cons, List.flatten_cons, List.length_append] at hlen
    have hle : (M.W.pushFlat t).length ≤ args.length := by omega
    have htake : (args.take (M.W.pushFlat t).length).length = (M.W.pushFlat t).length := by
      rw [List.length_take, Nat.min_eq_left hle]
    have hrestLen : (args.drop (M.W.pushFlat t).length).length =
        (types.map M.W.pushFlat).flatten.length := by rw [List.length_drop]; omega
    rw [List.map_cons, forEachRecordType]
    refine Stops.after (Emits.flatTypes hmax) (Stops.after (Emits.slice hle)
      (Stops.after (Emits.extend _) ?_))
    rw [List.any_cons] at hyes
    split at hi
    · exact (hi _ n htake).first
    · next hno =>
        obtain ⟨code, outs, n₁, -, hemits, -⟩ := hi _ n htake
        have hrest := ih (by simpa [hno] using hyes)
          (fun u hu => h u (List.mem_cons_of_mem _ hu)) hrestLen n₁
        have habove := hrest.above outs
        rw [List.append_nil] at habove
        exact Stops.after hemits habove

theorem stopsArm (hM : M.W.Lawful M.p) {slots : List WasmType} {t : Ty}
    (hok : ∀ xs n, xs.length = (M.W.pushFlat t).length →
      Stops M ra (deallocate M.W what t : RGen M.W canon Unit) xs n)
    (hmax : (M.W.pushFlat t).length ≤ maxFlatParams)
    (hfit : (M.W.pushFlat t).length ≤ slots.length)
    (hjoin : List.Forall₂ WasmType.JoinsInto (M.W.pushFlat t)
      (slots.take (M.W.pushFlat t).length))
    {inputs : List Nat} (hinputs : inputs.length = slots.length) (n : Nat) :
    StopsIn M ra (flatForVariantArm M.W (.i32 :: slots) false inputs
      (some (t, deallocate M.W what t)) : RGen M.W canon Unit) [] n := by
  obtain ⟨casts, hcasts, hcastsLen⟩ := castAll_outOf hjoin
  have htake : (inputs.take (M.W.pushFlat t).length).length = (M.W.pushFlat t).length := by
    rw [List.length_take, hinputs, Nat.min_eq_left hfit]
  obtain ⟨code₁, outs₁, n₁, hlen₁, hemits₁, -⟩ :=
    emitCasts_ok canon ra hM.width hcasts (htake.trans hcastsLen.symm) n
  exact StopsIn.block (Stops.after (Emits.flatTypes hmax)
    (Stops.after (Emits.slice (hinputs ▸ hfit)) (Stops.after (Emits.extend _)
      (Stops.after hemits₁ (hok outs₁ n₁ (hlen₁.trans htake))))))

variable (canon what ra) in
/-- A fixed-length list among what the core values stand for stops `deallocate`. -/
theorem stops_of_fixed (hM : M.W.Lawful M.p) {ty : Ty} (hv : ty.Valid)
    (hfixed : ty.flatFixed = true) (hflat : (M.W.pushFlat ty).length ≤ maxFlatParams) :
    ∀ xs n, xs.length = (M.W.pushFlat ty).length →
      Stops M ra (deallocate M.W what ty : RGen M.W canon Unit) xs n := by
  induction ty using Ty.ind with
  | type id t ih =>
    rw [Ty.flatFixed, Ty.flatLeaves] at hfixed
    rw [hM.flat_type] at hflat ⊢
    rw [deallocate]
    exact ih hv.of_type hfixed hflat
  | fixedLengthList id t k ih =>
    intro xs n _ base code₀ outer rp
    rw [deallocate]
    exact ⟨_, rfl⟩
  | fields ty types hf ih =>
    rw [flatFixed_fields hf] at hfixed
    intro xs n hlen
    rw [hM.flat_fields ty types hf] at hlen
    have hmembers := hflat
    rw [hM.flat_fields ty types hf] at hmembers
    have hmax : ∀ t ∈ types, (M.W.pushFlat t).length ≤ maxFlatParams := fun t ht =>
      Nat.le_trans (List.sublist_flatten_of_mem (List.mem_map_of_mem ht)).length_le hmembers
    have heach : Stops M ra (forEachRecordType M.W (types.map fun t => (t, deallocate M.W what t))
        xs : RGen M.W canon Unit) [] n := stopsEach hfixed
      (fun t ht => ⟨hmax t ht, by
        split
        · next hyes => exact ih t ht (hv.of_fields hf t ht) hyes (hmax t ht)
        · next hno => exact dispose_ok canon what ra hM (hv.of_fields hf t ht) (by simpa using hno) (hmax t ht)⟩)
      hlen n
    rw [(deallocate_fields_eq what hf).1]
    refine Stops.after (Emits.flatTypes hflat) (Stops.after (Emits.drain ?_) heach)
    rw [hlen, hM.flat_fields ty types hf]
  | arms ty arms ha ih =>
    obtain ⟨slots, hslots, hjoin⟩ := hM.flat_arms ty arms ha
    rw [flatFixed_arms ha] at hfixed
    intro xs n hlen
    rw [hslots, List.length_cons] at hlen
    obtain ⟨d, inputs, rfl⟩ := List.exists_cons_of_length_eq_add_one hlen
    have hinputs : inputs.length = slots.length := by simpa using hlen
    have hmax : ∀ t, some t ∈ arms → (M.W.pushFlat t).length ≤ maxFlatParams := by
      intro t ht
      rw [hslots, List.length_cons] at hflat
      exact Nat.le_trans (hjoin t ht).1 (Nat.le_of_succ_le hflat)
    have hloop : StopsIn M ra ((arms.map fun o => o.map fun t => (t, deallocate M.W what t)).forM
        (flatForVariantArm M.W (.i32 :: slots) false inputs) : RGen M.W canon PUnit) [] n := by
      have hturns : ((arms.map fun o => o.map fun t => (t, deallocate M.W what t)).forM
          (flatForVariantArm M.W (.i32 :: slots) false inputs) : RGen M.W canon PUnit) =
          arms.forM fun arm => flatForVariantArm M.W (.i32 :: slots) false inputs
            (arm.map fun t => (t, deallocate M.W what t)) := by
        simp [List.forM_map]
      rw [hturns]
      refine StopsIn.forM (fun o => o.any Ty.flatFixed) hfixed fun o ho => ?_
      cases o with
      | none => exact ⟨[], _, Finishes.effectBlock Emits.pure []⟩
      | some t =>
        obtain ⟨hfit, hjoins⟩ := hjoin t ho
        have hvt := (hv.of_arms ha).2 t ho
        split
        · next hyes =>
            exact stopsArm hM (ih t ho hvt hyes (hmax t ho)) (hmax t ho) hfit hjoins hinputs n
        · next hno =>
            have harm : ∃ b outs, outs.length = M.W.armLeftover (some t) ∧
                DisposeArmBlock M what slots inputs n (some t) b ∧
                Finishes ra (flatForVariantArm M.W (.i32 :: slots) false inputs
                  ((some t).map fun t => (t, deallocate M.W what t)) : RGen M.W canon Unit) [] n
                  () outs [b] := by
              refine disposeArm_ok hM (fun u hu => ?_) hinputs n
              obtain rfl := Option.some.inj hu
              exact ⟨dispose_ok canon what ra hM hvt (by simpa using hno) (hmax t ho), hmax t ho,
                hfit, hjoins⟩
            obtain ⟨b, outs, -, -, hfinish⟩ := harm
            exact ⟨outs, _, hfinish⟩
    rw [(deallocate_arms_eq what ha).1]
    refine Stops.first ?_
    have hstart : Emits ra (flatTypes M.W ty : RGen M.W canon (List WasmType)) (d :: inputs) n
        (.i32 :: slots) (d :: inputs) [] n := by
      have hft : Emits ra (flatTypes M.W ty : RGen M.W canon (List WasmType)) (d :: inputs) n
          (M.W.pushFlat ty) (d :: inputs) [] n := Emits.flatTypes hflat
      rwa [hslots] at hft
    have hdrain : Emits ra (drain ((WasmType.i32 :: slots).length - 1) :
        RGen M.W canon (List Nat)) (d :: inputs) n inputs [d] [] n := by
      have hinner : Emits ra (drain ((WasmType.i32 :: slots).length - 1) :
          RGen M.W canon (List Nat)) inputs n inputs [] [] n := Emits.drain hinputs
      exact hinner.frame [d]
    refine Stops.after hstart (Stops.after hdrain fun base code₀ outer rp => ?_)
    exact (hloop.above [d]) base code₀ [] outer rp
  | _ => simp [Ty.flatFixed, Ty.flatLeaves, Ty.isFixedLengthList] at hfixed

end

end WitBindgen
