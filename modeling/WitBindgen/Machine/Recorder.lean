import WitBindgen.Library.Code
import WitBindgen.Abi.Deallocate

/-!
# Recording what the generator emits

A backend that writes the instruction stream down. Operands are positions in
the order in which values are defined, blocks nest, and an instruction takes
the blocks pending at its level. The recorder panics unless these are exactly
the blocks the instruction consumes, each finished with the results expected of
it, and a block may only be finished with none pending inside.

`Emits` says what a generator step records, wherever it runs: it consumes the
operands on top of the stack, leaves its results there, and touches nothing
below.
-/

namespace WitBindgen

/-- What is recorded: an instruction, or a request for the return pointer. -/
inductive Op where
  | inst (i : Instruction)
  | returnPointer (size : ArchitectureSize) (align : Alignment)

abbrev CStmt := Code.Stmt Op

abbrev CBlock := Code.Block Op

/-- The code of a block under construction, the finished blocks no instruction
has taken yet, and the position of the next value. -/
structure Level where
  code : List CStmt
  pending : List CBlock
  next : Nat

structure RecorderState where
  cur : Level
  outer : List Level

abbrev recorder (W : WitParser) (isListCanonical : Ty → Bool) : Bindgen where
  State := RecorderState
  Operand := Nat
  emit inst operands s :=
    if s.cur.pending.map (·.results.length) = inst.blockResults then
      .ok (List.range' s.cur.next (inst.resultsLen W),
        { s with cur :=
          { code := s.cur.code ++ [Code.Stmt.mk (Op.inst inst) operands s.cur.pending]
            pending := []
            next := s.cur.next + inst.resultsLen W } })
    else .error .backend
  returnPointer size align s :=
    if s.cur.pending.isEmpty then
      .ok (s.cur.next, { s with cur :=
        { code := s.cur.code ++ [Code.Stmt.mk (Op.returnPointer size align) [] []]
          pending := []
          next := s.cur.next + 1 } })
    else .error .backend
  pushBlock s := .ok
    { cur := { code := [], pending := [], next := s.cur.next }, outer := s.cur :: s.outer }
  finishBlock operands s :=
    match s.outer with
    | [] => .error .backend
    | level :: levels =>
      if s.cur.pending.isEmpty then
        .ok { cur := { level with pending := level.pending ++ [Code.Block.mk s.cur.code operands] }
              outer := levels }
      else .error .backend
  isListCanonical

/-- Nothing recorded yet, with `n` values in scope. -/
def RecorderState.new (n : Nat) : RecorderState := ⟨⟨[], [], n⟩, []⟩

namespace Generator

variable {W : WitParser} {canon : Ty → Bool}

abbrev RGen (W : WitParser) (canon : Ty → Bool) := Gen (recorder W canon)

/-- A generator in front of the recorder. -/
def state (stack : List Nat) (code : List CStmt) (pending : List CBlock) (n : Nat)
    (outer : List Level) (rp : Option Nat) (ra : Option Realloc) :
    GenState (recorder W canon) :=
  ⟨⟨⟨code, pending, n⟩, outer⟩, stack, rp, ra⟩

/-! ## Single steps -/

section
variable {B : Bindgen} {s s' : GenState B} {stack : List B.Operand}

theorem bind_error {α β : Type} {g : Gen B α} {f : α → Gen B β} {e : Panic}
    (h : g s = .error e) : (g >>= f) s = .error e := by
  show (g s >>= fun p => f p.1 p.2) = _
  rw [h]
  rfl

theorem pop_run {x : B.Operand} (h : s.stack = stack ++ [x]) :
    pop s = .ok (x, { s with stack }) := by
  simp [pop, h]

theorem drain_run {xs : List B.Operand} (h : s.stack = stack ++ xs) :
    drain xs.length s = .ok (xs, { s with stack }) := by
  simp [drain, h]

theorem emit_run {inst : Instruction} {ops results : List B.Operand} {bindgen : B.State}
    (h : s.stack = stack ++ ops) (hops : ops.length = inst.operandsLen W)
    (hemit : B.emit inst ops s.bindgen = .ok (results, bindgen))
    (hresults : results.length = inst.resultsLen W) :
    emit W inst s = .ok ((), { s with bindgen, stack := stack ++ results }) := by
  simp [emit, h, ← hops, hemit, hresults]

theorem finishBlock_run {xs : List B.Operand} {bindgen : B.State} (h : s.stack = stack ++ xs)
    (hfinish : B.finishBlock xs s.bindgen = .ok bindgen) :
    finishBlock xs.length s = .ok ((), { s with bindgen, stack }) := by
  simp [finishBlock, h, hfinish]

end

section
variable {α β : Type} {s s' : GenState (recorder W canon)} {stack : List Nat}
  {code : List CStmt} {pending : List CBlock} {n : Nat} {outer : List Level}
  {rp : Option Nat} {ra : Option Realloc}

theorem push_ok (x : Nat) : (push x : RGen W canon Unit) (state stack code pending n outer rp ra) =
    .ok ((), state (stack ++ [x]) code pending n outer rp ra) := rfl

theorem extend_ok (xs : List Nat) :
    (extend xs : RGen W canon Unit) (state stack code pending n outer rp ra) =
    .ok ((), state (stack ++ xs) code pending n outer rp ra) := rfl

theorem pop_ok (x : Nat) :
    (pop : RGen W canon Nat) (state (stack ++ [x]) code pending n outer rp ra) =
    .ok (x, state stack code pending n outer rp ra) :=
  pop_run (B := recorder W canon) rfl

theorem drain_ok {xs : List Nat} {k : Nat} (h : xs.length = k) :
    (drain k : RGen W canon (List Nat)) (state (stack ++ xs) code pending n outer rp ra) =
    .ok (xs, state stack code pending n outer rp ra) := by
  subst h
  exact drain_run (B := recorder W canon) rfl

theorem emit_ok {inst : Instruction} {ops : List Nat} (hops : ops.length = inst.operandsLen W)
    (hblocks : pending.map (·.results.length) = inst.blockResults) :
    (emit W inst : RGen W canon Unit) (state (stack ++ ops) code pending n outer rp ra) =
    .ok ((), state (stack ++ List.range' n (inst.resultsLen W))
      (code ++ [Code.Stmt.mk (Op.inst inst) ops pending]) [] (n + inst.resultsLen W) outer rp ra) := by
  refine emit_run (B := recorder W canon) rfl hops ?_ (List.length_range' ..)
  exact if_pos hblocks

theorem pushBlock_ok :
    (pushBlock : RGen W canon Unit) (state stack code pending n outer rp ra) =
    .ok ((), state stack [] [] n (⟨code, pending, n⟩ :: outer) rp ra) := rfl

theorem finishBlock_ok {xs : List Nat} {k : Nat} (h : xs.length = k) {code' : List CStmt}
    {n' : Nat} :
    (finishBlock k : RGen W canon Unit)
      (state (stack ++ xs) code' [] n' (⟨code, pending, n⟩ :: outer) rp ra) =
    .ok ((), state stack code (pending ++ [Code.Block.mk code' xs]) n outer rp ra) := by
  subst h
  exact finishBlock_run (B := recorder W canon) rfl rfl

theorem returnPointer_ok (size : ArchitectureSize) (align : Alignment) :
    (returnPointer size align : RGen W canon Nat) (state stack code [] n outer rp ra) =
    .ok (n, state stack (code ++ [Code.Stmt.mk (Op.returnPointer size align) [] []]) [] (n + 1) outer
      rp ra) := rfl

theorem flatTypes_ok {ty : Ty} (h : (W.pushFlat ty).length ≤ maxFlatParams) :
    (flatTypes W ty : RGen W canon (List WasmType)) s = .ok (W.pushFlat ty, s) := by
  simp only [flatTypes, WitParser.flatTypes, Option.getD_none, h, if_true]
  rfl

theorem slice_ok {k : Nat} {xs : List Nat} (h : k ≤ xs.length) :
    (slice k xs : RGen W canon (List Nat)) s = .ok (xs.take k, s) := by
  have hrun : (slice k xs : RGen W canon (List Nat)) = pure (xs.take k) := if_pos h
  rw [hrun]
  rfl

end

/-! ## Recorded code -/

/-- Wherever it runs, `g` takes the operands `ops` from the stack, leaves
`outs`, returns `x` and records `code`, which defines the positions from `n` up
to `n'`. -/
def Emits {α : Type} (ra : Option Realloc) (g : RGen W canon α) (ops : List Nat) (n : Nat)
    (x : α) (outs : List Nat) (code : List CStmt) (n' : Nat) : Prop :=
  ∀ base code₀ outer rp,
    g (state (base ++ ops) code₀ [] n outer rp ra) =
      .ok (x, state (base ++ outs) (code₀ ++ code) [] n' outer rp ra)

/-- Wherever it runs, `g` finishes the blocks `blocks` at the level it runs at. -/
def Finishes {α : Type} (ra : Option Realloc) (g : RGen W canon α) (ops : List Nat) (n : Nat)
    (x : α) (outs : List Nat) (blocks : List CBlock) : Prop :=
  ∀ base code₀ pending outer rp,
    g (state (base ++ ops) code₀ pending n outer rp ra) =
      .ok (x, state (base ++ outs) code₀ (pending ++ blocks) n outer rp ra)

section
variable {α β : Type} {ra : Option Realloc} {ops outs outs' : List Nat} {n n₁ n₂ : Nat}
  {code code' : List CStmt} {blocks blocks' : List CBlock} {x : α} {y : β}

theorem Emits.pure : Emits ra (Pure.pure x : RGen W canon α) ops n x ops [] n := by
  intro base code₀ outer rp
  rw [List.append_nil]
  rfl

theorem Emits.bind {g : RGen W canon α} {f : α → RGen W canon β}
    (h : Emits ra g ops n x outs code n₁) (h' : Emits ra (f x) outs n₁ y outs' code' n₂) :
    Emits ra (g >>= f) ops n y outs' (code ++ code') n₂ := by
  intro base code₀ outer rp
  rw [bind_ok (h base code₀ outer rp), h' base (code₀ ++ code) outer rp, List.append_assoc]

/-- Operands below those of the step stay where they are. -/
theorem Emits.frame {g : RGen W canon α} (h : Emits ra g ops n x outs code n₁)
    (below : List Nat) : Emits ra g (below ++ ops) n x (below ++ outs) code n₁ := by
  intro base code₀ outer rp
  rw [← List.append_assoc, ← List.append_assoc]
  exact h (base ++ below) code₀ outer rp

/-- A step that takes nothing, on top of what is there. -/
theorem Emits.above {g : RGen W canon α} (h : Emits ra g [] n x outs code n₁)
    (below : List Nat) : Emits ra g below n x (below ++ outs) code n₁ := by
  have hframe := h.frame below
  rwa [List.append_nil] at hframe

theorem Emits.emit {inst : Instruction} {k : Nat} (hops : ops.length = inst.operandsLen W)
    (hblocks : inst.blockResults = []) (hk : inst.resultsLen W = k) :
    Emits ra (emit W inst : RGen W canon Unit) ops n () (List.range' n k)
      [Code.Stmt.mk (Op.inst inst) ops []] (n + k) := by
  subst hk
  exact fun _ _ _ _ => emit_ok hops hblocks.symm

theorem Finishes.pure : Finishes ra (Pure.pure x : RGen W canon α) ops n x ops [] := by
  intro base code₀ pending outer rp
  rw [List.append_nil]
  rfl

theorem Finishes.bind {g : RGen W canon α} {f : α → RGen W canon β}
    (h : Finishes ra g ops n x outs blocks) (h' : Finishes ra (f x) outs n y outs' blocks') :
    Finishes ra (g >>= f) ops n y outs' (blocks ++ blocks') := by
  intro base code₀ pending outer rp
  rw [bind_ok (h base code₀ pending outer rp), h' base code₀ (pending ++ blocks) outer rp,
    List.append_assoc]

theorem Finishes.frame {g : RGen W canon α} (h : Finishes ra g ops n x outs blocks)
    (below : List Nat) : Finishes ra g (below ++ ops) n x (below ++ outs) blocks := by
  intro base code₀ pending outer rp
  rw [← List.append_assoc, ← List.append_assoc]
  exact h (base ++ below) code₀ pending outer rp

/-- A block around a body that leaves `results` on top. -/
theorem Finishes.block {body : RGen W canon Unit} {results : List Nat} {k : Nat}
    (h : Emits ra body ops n () (outs ++ results) code n₁) (hk : results.length = k) :
    Finishes ra (Generator.block k body) ops n () outs [.mk code results] := by
  intro base code₀ pending outer rp
  rw [Generator.block, bind_ok pushBlock_ok, bind_ok (h base [] (⟨code₀, pending, n⟩ :: outer) rp),
    ← List.append_assoc, List.nil_append]
  exact finishBlock_ok hk

/-- A block that hands nothing back. -/
theorem Finishes.unitBlock {body : RGen W canon Unit} (h : Emits ra body ops n () outs code n₁) :
    Finishes ra (Generator.block 0 body) ops n () outs [.mk code []] :=
  Finishes.block (by rw [List.append_nil]; exact h) rfl

/-- A block that neither takes nor leaves operands. -/
theorem Finishes.effectBlock {body : RGen W canon Unit} (h : Emits ra body [] n () [] code n₁)
    (ops : List Nat) : Finishes ra (Generator.block 0 body) ops n () ops [.mk code []] := by
  have hframe := (Finishes.unitBlock h).frame ops
  rwa [List.append_nil] at hframe

/-- A loop whose turns each finish one block. -/
theorem Finishes.forM {ι : Type} {f : ι → RGen W canon PUnit} {P : ι → CBlock → Prop}
    (xs : List ι) (h : ∀ i ∈ xs, ∃ b, P i b ∧ Finishes ra (f i) ops n ⟨⟩ ops [b]) :
    ∃ blocks, List.Forall₂ P xs blocks ∧ Finishes ra (xs.forM f) ops n ⟨⟩ ops blocks := by
  induction xs with
  | nil => exact ⟨[], .nil, Finishes.pure⟩
  | cons i xs ih =>
    obtain ⟨b, hb, hi⟩ := h i (List.mem_cons_self ..)
    obtain ⟨bs, hbs, hxs⟩ := ih fun j hj => h j (List.mem_cons_of_mem _ hj)
    exact ⟨b :: bs, .cons hb hbs, hi.bind hxs⟩

/-- A loop whose turns each finish one block and leave operands behind. -/
theorem Finishes.forM_leaving {ι : Type} {f : ι → RGen W canon PUnit} {P : ι → CBlock → Prop}
    {left : ι → Nat} (xs : List ι) (h : ∀ i ∈ xs, ∃ b outs, outs.length = left i ∧ P i b ∧
      Finishes ra (f i) [] n ⟨⟩ outs [b]) :
    ∃ blocks outs, outs.length = (xs.map left).sum ∧ List.Forall₂ P xs blocks ∧
      Finishes ra (xs.forM f) [] n ⟨⟩ outs blocks := by
  induction xs with
  | nil => exact ⟨[], [], rfl, .nil, Finishes.pure⟩
  | cons i xs ih =>
    obtain ⟨b, outs, houts, hb, hi⟩ := h i (List.mem_cons_self ..)
    obtain ⟨bs, outs', houts', hbs, hxs⟩ := ih fun j hj => h j (List.mem_cons_of_mem _ hj)
    have hframe := hxs.frame outs
    rw [List.append_nil] at hframe
    exact ⟨b :: bs, outs ++ outs', by simp [houts, houts'], .cons hb hbs, hi.bind hframe⟩

/-- Finishing blocks and then emitting the instruction that takes them. -/
theorem Finishes.emit {g : RGen W canon α} {i : α → Instruction} {k : Nat}
    (h : Finishes ra g ops n x outs blocks) (hops : outs.length = (i x).operandsLen W)
    (hblocks : blocks.map (·.results.length) = (i x).blockResults)
    (hk : (i x).resultsLen W = k) :
    Emits ra (g >>= fun y => emit W (i y)) ops n () (List.range' n k)
      [Code.Stmt.mk (Op.inst (i x)) outs blocks] (n + k) := by
  subst hk
  intro base code₀ outer rp
  rw [bind_ok (h base code₀ [] outer rp), List.nil_append]
  exact emit_ok hops hblocks

/-- The instruction that takes the blocks finds its operands on top of others. -/
theorem Finishes.emit_above {g : RGen W canon α} {i : α → Instruction} {k : Nat} {below : List Nat}
    (h : Finishes ra g ops n x (below ++ outs) blocks) (hops : outs.length = (i x).operandsLen W)
    (hblocks : blocks.map (·.results.length) = (i x).blockResults)
    (hk : (i x).resultsLen W = k) :
    Emits ra (g >>= fun y => Generator.emit W (i y)) ops n () (below ++ List.range' n k)
      [Code.Stmt.mk (Op.inst (i x)) outs blocks] (n + k) := by
  subst hk
  intro base code₀ outer rp
  rw [bind_ok (h base code₀ [] outer rp), List.nil_append, ← List.append_assoc,
    ← List.append_assoc]
  exact emit_ok hops hblocks

/-! ### Steps that record nothing -/

theorem Emits.push (y : Nat) :
    Emits ra (push y : RGen W canon Unit) ops n () (ops ++ [y]) [] n := by
  intro base code₀ outer rp
  rw [push_ok, List.append_nil, List.append_assoc]

theorem Finishes.push (y : Nat) :
    Finishes ra (Generator.push y : RGen W canon Unit) ops n () (ops ++ [y]) [] := by
  intro base code₀ pending outer rp
  rw [push_ok, List.append_nil, List.append_assoc]

theorem Emits.pop (ops : List Nat) (y : Nat) : Emits ra (pop : RGen W canon Nat) (ops ++ [y]) n y ops [] n := by
  intro base code₀ outer rp
  rw [← List.append_assoc, pop_ok, List.append_nil]

theorem Emits.drain {k : Nat} (h : ops.length = k) :
    Emits ra (drain k : RGen W canon (List Nat)) ops n ops [] [] n := by
  intro base code₀ outer rp
  rw [drain_ok h, List.append_nil, List.append_nil]

theorem Emits.extend (ys : List Nat) :
    Emits ra (extend ys : RGen W canon Unit) ops n () (ops ++ ys) [] n := by
  intro base code₀ outer rp
  rw [extend_ok, List.append_nil, List.append_assoc]

theorem Emits.listRealloc (r : Realloc) : ∃ name,
    Emits (some r) (listRealloc : RGen W canon (Option String)) ops n name ops [] n := by
  cases r <;> exact ⟨_, fun base code₀ outer rp => by rw [List.append_nil]; rfl⟩

theorem Emits.flatTypes {ty : Ty} (h : (W.pushFlat ty).length ≤ maxFlatParams) :
    Emits ra (flatTypes W ty : RGen W canon (List WasmType)) ops n (W.pushFlat ty) ops [] n := by
  intro base code₀ outer rp
  rw [flatTypes_ok h, List.append_nil]

theorem Finishes.flatTypes {ty : Ty} (h : (W.pushFlat ty).length ≤ maxFlatParams) :
    Finishes ra (Generator.flatTypes W ty : RGen W canon (List WasmType)) ops n (W.pushFlat ty)
      ops [] := by
  intro base code₀ pending outer rp
  rw [flatTypes_ok h, List.append_nil]

theorem Finishes.drain {k : Nat} (h : ops.length = k) :
    Finishes ra (Generator.drain k : RGen W canon (List Nat)) ops n ops [] [] := by
  intro base code₀ pending outer rp
  rw [drain_ok h, List.append_nil, List.append_nil]

theorem Emits.slice {k : Nat} {xs : List Nat} (h : k ≤ xs.length) :
    Emits ra (slice k xs : RGen W canon (List Nat)) ops n (xs.take k) ops [] n := by
  intro base code₀ outer rp
  rw [slice_ok h, List.append_nil]

/-- A loop ends with its last turn. -/
theorem Emits.forM_concat {ι : Type} {f : ι → RGen W canon PUnit} {xs : List ι} {i : ι}
    (h : Emits ra (xs.forM f) ops n ⟨⟩ outs code n₁)
    (h' : Emits ra (f i) outs n₁ ⟨⟩ outs' code' n₂) :
    Emits ra ((xs ++ [i]).forM f) ops n ⟨⟩ outs' (code ++ code') n₂ := by
  have happ : (xs ++ [i]).forM f = (xs.forM f >>= fun _ => f i) := by simp
  rw [happ]
  exact h.bind h'

/-- A step that records nothing in front of another. -/
theorem Emits.then {g : RGen W canon α} {f : α → RGen W canon β}
    (h : Emits ra g ops n x outs [] n) (h' : Emits ra (f x) outs n y outs' code n₂) :
    Emits ra (g >>= f) ops n y outs' code n₂ := h.bind h'

end

end Generator

end WitBindgen
