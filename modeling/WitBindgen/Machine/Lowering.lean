import WitBindgen.Abi.Schemes
import WitBindgen.Machine.Steps

/-!
# The generator lowers what the canonical ABI lowers

For every supported type, the code `lower` records computes `lowerFlat` and the
code `writeToMemory` records computes `store`, in any scope and whatever was
recorded before. Both are proved in one induction over the type, since a list
is lowered by writing its elements.
-/

namespace WitBindgen

open Heap Code Generator

section
variable {M : Machine} {canon : Ty → Bool}

/-! ## What emitters compute -/

/-- The code `g` records lowers the value at `x` to `k` core values, as `spec`
does. -/
def Lowers (M : Machine) (ra : Option Realloc) (g : RGen M.W canon Unit) (x n k : Nat)
    (spec : Val → Exec Event (List Word)) : Prop :=
  ∃ code outs n', outs.length = k ∧ Emits ra g [x] n () outs code n' ∧
    ∀ ctx env v, env.length = n → env[x]? = some (.val v) →
      Computes M.step code ctx env n' (spec v) fun env' ws =>
        lookup env' outs = some (ws.map .word)

/-- The code `g` records writes the value at `x` to the address at `addr`, as
`spec` does. -/
def Writes (M : Machine) (ra : Option Realloc) (g : RGen M.W canon Unit) (x addr n : Nat)
    (spec : Val → Nat → Exec Event Unit) : Prop :=
  ∃ code n', Emits ra g [x] n () [] code n' ∧
    ∀ ctx env v a, env.length = n → env[x]? = some (.val v) → env[addr]? = some (.ptr a) →
      Computes M.step code ctx env n' (spec v a) fun _ _ => True

variable {ra : Option Realloc} {x addr n k : Nat} {g : RGen M.W canon Unit}

theorem Lowers.congr {spec spec' : Val → Exec Event (List Word)}
    (h : Lowers M ra g x n k spec) (hspec : ∀ v, spec v = spec' v) :
    Lowers M ra g x n k spec' := (funext hspec : spec = spec') ▸ h

theorem Writes.congr {spec spec' : Val → Nat → Exec Event Unit}
    (h : Writes M ra g x addr n spec) (hspec : ∀ v a, spec v a = spec' v a) :
    Writes M ra g x addr n spec' :=
  (funext fun v => funext (hspec v) : spec = spec') ▸ h

/-- An instruction that lowers one value. -/
theorem Lowers.inst {i : Instruction} {spec : Val → Exec Event (List Word)}
    (hops : i.operandsLen M.W = 1) (hblocks : i.blockResults = []) (hk : i.resultsLen M.W = k)
    (h : ∀ ctx v, Agree (fun rs ws => rs.length = k ∧ rs = ws.map .word)
      (M.instSem i ctx [] [.val v]) (spec v)) :
    Lowers M ra (emit M.W i : RGen M.W canon Unit) x n k spec := by
  refine ⟨_, _, _, List.length_range' .., Emits.emit hops.symm hblocks hk, ?_⟩
  intro ctx env v hn hx
  exact computes_inst hn (lookup_one hx) (h ctx v)

theorem Lowers.withRealloc {r : Realloc} {spec : Val → Exec Event (List Word)}
    {f : Option String → RGen M.W canon Unit} (h : ∀ name, Lowers M (some r) (f name) x n k spec) :
    Lowers M (some r) (listRealloc >>= f) x n k spec := by
  obtain ⟨name, hname⟩ : ∃ name, Emits (some r)
      (listRealloc : RGen M.W canon (Option String)) [x] n name [x] [] n := Emits.listRealloc r
  obtain ⟨code, outs, n', hlen, hemits, hcomp⟩ := h name
  exact ⟨code, outs, n', hlen, hname.then hemits, hcomp⟩

/-! ## Scalars, handles, flags and strings -/

theorem lowers_prim (q : Prim) :
    Lowers M ra (emit M.W (lowerPrim q) : RGen M.W canon Unit) x n 1
      (lowerFlat M.toTarget (.prim q)) := by
  have hsem : ∀ ctx v, M.instSem (lowerPrim q) ctx [] [.val v] =
      Machine.lowerScalar q (.val v) := by
    intro ctx v
    cases q <;> rfl
  refine Lowers.inst (by cases q <;> rfl) (by cases q <;> rfl) (by cases q <;> rfl) ?_
  intro ctx v
  rw [hsem, Machine.lowerScalar, lowerFlat, RVal.asVal_val, require_some, pure_bind]
  exact Agree.require fun n _ => Agree.pure ⟨rfl, rfl⟩

theorem lowers_handle {i : Instruction} (hops : i.operandsLen M.W = 1)
    (hblocks : i.blockResults = []) (hk : i.resultsLen M.W = 1)
    (hsem : ∀ ctx v, M.instSem i ctx [] [.val v] = Machine.lowerHandleOp (.val v)) :
    Lowers M ra (emit M.W i : RGen M.W canon Unit) x n 1 lowerHandle := by
  refine Lowers.inst hops hblocks hk ?_
  intro ctx v
  rw [hsem, Machine.lowerHandleOp, lowerHandle, RVal.asVal_val, require_some, pure_bind]
  exact Agree.require fun h _ => Agree.pure ⟨rfl, rfl⟩

theorem lowers_flags (id : TypeId) (name : String) (names : List String) :
    Lowers M ra (emit M.W (.flagsLower names name id) : RGen M.W canon Unit) x n
      (M.W.flagsRepr names.length).count (lowerFlat M.toTarget (.flags id name names)) := by
  refine Lowers.inst rfl rfl rfl ?_
  intro ctx v
  have hsem : M.instSem (.flagsLower names name id) ctx [] [.val v] =
      (do
        let bs ← require (v.asFlags names.length)
        pure ((flagWords (M.W.flagsRepr names.length).count bs).map fun w =>
          .word ⟨.i32, w⟩)) := rfl
  rw [hsem, lowerFlat]
  exact Agree.require fun bs _ => Agree.pure ⟨by simp, by simp⟩

theorem lowers_enum (id : TypeId) (name : String) (cases' : List String) :
    Lowers M ra (emit M.W (.enumLower cases' name id) : RGen M.W canon Unit) x n 1
      (lowerFlat M.toTarget (.enum id name cases')) := by
  refine Lowers.inst rfl rfl rfl ?_
  intro ctx v
  have hsem : M.instSem (.enumLower cases' name id) ctx [] [.val v] =
      (do
        let i ← require (v.asEnum cases'.length)
        pure [.word (disc i)]) := rfl
  rw [hsem, lowerFlat]
  exact Agree.require fun i _ => Agree.pure ⟨rfl, rfl⟩

/-- A pointer and a length, as the machine and as the specification hand them on. -/
theorem agree_pair {make make' : Exec Event (Nat × Nat)} (h : Agree Eq make make') :
    Agree (fun rs ws => rs.length = 2 ∧ rs = ws.map .word)
      (make >>= fun y => pure (Machine.pairResults y))
      (make' >>= fun y => pure (pairWords y)) := by
  refine h.bind ?_
  rintro y _ rfl
  exact Agree.pure ⟨rfl, rfl⟩

theorem lowers_string (realloc : Option String) :
    Lowers M ra (emit M.W (.stringLower realloc) : RGen M.W canon Unit) x n 2
      (lowerFlat M.toTarget .string) := by
  refine Lowers.inst rfl rfl rfl ?_
  intro ctx v
  have hsem : M.instSem (.stringLower realloc) ctx [] [.val v] =
      (do
        let s ← require v.asString
        let y ← lowerString M.toTarget s
        pure (Machine.pairResults y)) := rfl
  rw [hsem, lowerFlat]
  exact Agree.require fun s _ => agree_pair (Agree.refl _)

theorem lowers_listCanon (id : TypeId) (t : Ty) (realloc : Option String) :
    Lowers M ra (emit M.W (.listCanonLower t realloc) : RGen M.W canon Unit) x n 2
      (lowerFlat M.toTarget (.list id t)) := by
  refine Lowers.inst rfl rfl rfl ?_
  intro ctx v
  have hsem : M.instSem (.listCanonLower t realloc) ctx [] [.val v] =
      (do
        let vs ← require v.asList
        let y ← lowerBuffer M.toTarget (M.size t) (M.align t)
          (vs.map (store M.toTarget t))
        pure (Machine.pairResults y)) := rfl
  rw [hsem, lowerFlat]
  exact Agree.require fun vs _ => agree_pair (Agree.refl _)

/-! ## Stores -/

/-- An instruction that stores a core value of type `ty` as `size` bytes. -/
structure IsStore (M : Machine) (i : Instruction) (ty : WasmType) (size : Nat)
    (offset : ArchitectureSize) : Prop where
  operands : i.operandsLen M.W = 2
  results : i.resultsLen M.W = 0
  blocks : i.blockResults = []
  sem : ∀ ctx w a, M.instSem i ctx [] [w, a] = M.storeWord ty size offset w a

section
variable {offset : ArchitectureSize} {ty : WasmType} {size : Nat} {i : Instruction}

theorem isStore_i32 : IsStore M (.i32Store offset) .i32 4 offset :=
  ⟨rfl, rfl, rfl, fun _ _ _ => rfl⟩

theorem isStore_prim (q : Prim) : IsStore M (storePrim offset q) q.flat q.bytes offset := by
  cases q <;> exact ⟨rfl, rfl, rfl, fun _ _ _ => rfl⟩

variable (M canon offset) in
/-- The store of a discriminant. -/
theorem isStore_intrepr {repr : IntRepr} (h : repr ≠ .u64) : ∃ i,
    (storeIntrepr M.W offset repr : RGen M.W canon Unit) = emit M.W i ∧
      IsStore M i .i32 repr.bytes offset := by
  cases repr with
  | u64 => exact absurd rfl h
  | u8 => exact ⟨.i32Store8 offset, rfl, rfl, rfl, rfl, fun _ _ _ => rfl⟩
  | u16 => exact ⟨.i32Store16 offset, rfl, rfl, rfl, rfl, fun _ _ _ => rfl⟩
  | u32 => exact ⟨.i32Store offset, rfl, rfl, rfl, rfl, fun _ _ _ => rfl⟩

theorem IsStore.emits (h : IsStore M i ty size offset) (y : Nat) :
    Emits ra (emit M.W i : RGen M.W canon Unit) [y, addr] n () []
      [Code.Stmt.mk (Op.inst i) [y, addr] []] n :=
  Emits.emit (by rw [h.operands]; rfl) h.blocks h.results

theorem IsStore.computes (h : IsStore M i ty size offset) (ctx : Ctx) {env : List RVal}
    {y m a : Nat} (hn : env.length = n) (hy : env[y]? = some (.word ⟨ty, m⟩))
    (haddr : env[addr]? = some (.ptr a)) :
    Computes M.step [Code.Stmt.mk (Op.inst i) [y, addr] []] ctx env n
      (storeNat (a + offset.eval M.p) size m) fun _ _ => True := by
  refine computes_effect hn (lookup_two hy haddr) ?_
  rw [List.map_nil, h.sem]
  simp [Machine.storeWord, bitsOf]

/-- A value lowered to one core value, which an instruction stores. -/
theorem Writes.lowerAndEmit {spec : Val → Exec Event Nat} (hi : IsStore M i ty size offset)
    (h : Lowers M ra g x n 1 fun v => spec v >>= fun m => pure [⟨ty, m⟩]) :
    Writes M ra (lowerAndEmit M.W g addr i) x addr n
      (fun v a => spec v >>= storeNat (a + offset.eval M.p) size) := by
  obtain ⟨code, outs, n', hlen, hemits, hcomp⟩ := h
  obtain ⟨y, rfl⟩ := List.length_eq_one_iff.mp hlen
  refine ⟨_, _, hemits.bind ((Emits.push addr).then (hi.emits y)), ?_⟩
  intro ctx env v a hn hx haddr
  refine Computes.append (hcomp ctx env v hn hx).comap fun env₁ m hpre hlen₁ hm => ?_
  exact hi.computes ctx hlen₁ (by simpa using getElem?_of_lookup hm) (getElem?_mono hpre haddr)

/-- A value lowered to a pointer and a length, which go to memory. -/
theorem Writes.writeListToMemory {ty : Ty} {make : Val → Exec Event (Nat × Nat)}
    (halign : M.W.align ty = .pointer)
    (h : Lowers M ra g x n 2 fun v => make v >>= fun y => pure (pairWords y)) :
    Writes M ra (writeListToMemory M.W ty g addr offset) x addr n
      (fun v a => make v >>= storePair M.toTarget (a + offset.eval M.p)) := by
  obtain ⟨code, outs, n', hlen, hemits, hcomp⟩ := h
  obtain ⟨ptr, len, rfl⟩ := List.length_eq_two.mp hlen
  have hlength : IsStore M (.lengthStore (offset + (M.W.align ty).toSize)) .length M.p
      (offset + (M.W.align ty).toSize) := ⟨rfl, rfl, rfl, fun _ _ _ => rfl⟩
  have hpointer : IsStore M (.pointerStore offset) .pointer M.p offset :=
    ⟨rfl, rfl, rfl, fun _ _ _ => rfl⟩
  have hoffset : ∀ a, a + (offset + (M.W.align ty).toSize).eval M.p =
      a + offset.eval M.p + M.p := by
    intro a
    rw [halign, ArchitectureSize.eval_add, ← Nat.add_assoc]
    simp [Alignment.toSize, ArchitectureSize.eval]
  refine ⟨_, _, hemits.bind ((Emits.push addr).then (((hlength.emits len).frame [ptr]).bind
    ((Emits.push addr).then (hpointer.emits ptr)))), ?_⟩
  intro ctx env v a hn hx haddr
  refine Computes.append (hcomp ctx env v hn hx).comap fun env₁ y hpre hlen₁ hy => ?_
  have haddr₁ := getElem?_mono hpre haddr
  obtain ⟨hptr, hlen⟩ : env₁[ptr]? = some (.word ⟨.pointer, y.1⟩) ∧
      env₁[len]? = some (.word ⟨.length, y.2⟩) := by
    simpa [pairWords] using getElem?_of_lookup hy
  have hstore := hlength.computes ctx hlen₁ hlen haddr₁
  rw [hoffset] at hstore
  exact Computes.append hstore fun env₂ _ hpre₂ hlen₂ _ =>
    hpointer.computes ctx hlen₂ (getElem?_mono hpre₂ hptr) (getElem?_mono hpre₂ haddr₁)

/-- The words of a set of flags, stored from the last to the first. -/
theorem storeFlags_words (outs : List Nat) (j : Nat) : ∃ code,
    Emits ra ((List.range' j outs.length).reverse.forM fun i => do
      (push addr : RGen M.W canon Unit)
      emit M.W (.i32Store (offset.addBytes (i * 4)))) outs n ⟨⟩ [] code n ∧
    ∀ ctx env ws a, env.length = n → env[addr]? = some (.ptr a) →
      lookup env outs = some (ws.map fun w => .word ⟨.i32, w⟩) →
      Computes M.step code ctx env n (storeWords 4 ws (a + offset.eval M.p + j * 4))
        fun _ _ => True := by
  induction outs generalizing j with
  | nil =>
    refine ⟨[], Emits.pure, ?_⟩
    intro ctx env ws a hn _ hws
    have hlen := lookup_length hws
    obtain rfl : ws = [] := by simpa using hlen
    subst hn
    exact Computes.nil trivial
  | cons o outs ih =>
    obtain ⟨code, hemits, hcomp⟩ := ih (j + 1)
    have hstore : IsStore M (.i32Store (offset.addBytes (j * 4))) .i32 4
        (offset.addBytes (j * 4)) := isStore_i32
    rw [List.length_cons, List.range'_succ, List.reverse_cons]
    refine ⟨_, (hemits.frame [o]).forM_concat
      ((Emits.push addr).then (hstore.emits o)), ?_⟩
    intro ctx env ws a hn haddr hws
    obtain ⟨w, ws, rfl, hw, hws'⟩ : ∃ w us, ws = w :: us ∧
        env[o]? = some (.word ⟨.i32, w⟩) ∧
        lookup env outs = some (us.map fun w => .word ⟨.i32, w⟩) := by
      cases ws with
      | nil => simpa using lookup_length hws
      | cons w us =>
        exact ⟨w, us, rfl, (lookup_cons_inv hws).1, (lookup_cons_inv hws).2⟩
    have haddress : a + (offset.addBytes (j * 4)).eval M.p = a + offset.eval M.p + j * 4 := by
      rw [ArchitectureSize.eval_addBytes, Nat.add_assoc]
    have hnext : a + offset.eval M.p + (j + 1) * 4 = a + offset.eval M.p + j * 4 + 4 := by
      omega
    have hrest := hcomp ctx env ws a hn haddr hws'
    rw [hnext] at hrest
    refine Computes.append hrest fun env₁ _ hpre hlen₁ _ => ?_
    have hfirst := hstore.computes ctx hlen₁ (getElem?_mono hpre hw)
      (getElem?_mono hpre haddr)
    rw [haddress] at hfirst
    simpa using hfirst

theorem storeFlags_repr (repr : FlagsRepr) {outs : List Nat} (hlen : outs.length = repr.count) :
    ∃ code, Emits ra (storeFlags M.W repr addr offset : RGen M.W canon Unit) outs n () [] code n ∧
    ∀ ctx env ws a, env.length = n → env[addr]? = some (.ptr a) →
      lookup env outs = some (ws.map fun w => .word ⟨.i32, w⟩) →
      Computes M.step code ctx env n (storeWords repr.wordBytes ws (a + offset.eval M.p))
        fun _ _ => True := by
  have hsmall : ∀ (i : Instruction) (k : Nat), IsStore M i .i32 k offset → outs.length = 1 →
      ∃ code, Emits ra (push addr >>= fun _ => (emit M.W i : RGen M.W canon Unit)) outs n () []
        code n ∧ ∀ ctx env ws a, env.length = n → env[addr]? = some (.ptr a) →
          lookup env outs = some (ws.map fun w => .word ⟨.i32, w⟩) →
          Computes M.step code ctx env n (storeWords k ws (a + offset.eval M.p))
            fun _ _ => True := by
    intro i k hi hone
    obtain ⟨o, rfl⟩ := List.length_eq_one_iff.mp hone
    refine ⟨_, (Emits.push addr).then (hi.emits o), ?_⟩
    intro ctx env ws a hn haddr hws
    obtain ⟨w, rfl⟩ : ∃ w, ws = [w] :=
      List.length_eq_one_iff.mp (by simpa using lookup_length hws)
    exact hi.computes ctx hn (lookup_cons_inv hws).1 haddr
  cases repr with
  | u8 => exact hsmall (.i32Store8 offset) 1 ⟨rfl, rfl, rfl, fun _ _ _ => rfl⟩ hlen
  | u16 => exact hsmall (.i32Store16 offset) 2 ⟨rfl, rfl, rfl, fun _ _ _ => rfl⟩ hlen
  | u32 k =>
    obtain rfl : outs.length = k := hlen
    rw [storeFlags, List.range_eq_range']
    obtain ⟨code, hemits, hcomp⟩ := storeFlags_words outs 0
    refine ⟨code, hemits, ?_⟩
    intro ctx env ws a hn haddr hws
    simpa [FlagsRepr.wordBytes] using hcomp ctx env ws a hn haddr hws

end

/-! ## Blocks over elements -/

/-- Writing every value of a type does what the canonical ABI says. -/
def WriteOk (M : Machine) (canon : Ty → Bool) (ra : Option Realloc) (t : Ty) : Prop :=
  ∀ x addr n offset,
    Writes M ra (writeToMemory M.W t addr offset : RGen M.W canon Unit) x addr n
      fun v a => store M.toTarget t v (a + offset.eval M.p)

/-- Lowering every value of a type does what the canonical ABI says. -/
def LowerOk (M : Machine) (canon : Ty → Bool) (ra : Option Realloc) (t : Ty) : Prop :=
  ∀ x n, Lowers M ra (lower M.W t : RGen M.W canon Unit) x n (M.W.pushFlat t).length
    (lowerFlat M.toTarget t)

/-- Write what the iteration instruction `i` yields to the base pointer. -/
def writeIter {B : Bindgen} (W : WitParser) (i : Instruction) (t : Ty)
    (offset : ArchitectureSize) : Gen B Unit := do
  emit W i
  emit W .iterBasePointer
  let addr ← pop
  writeToMemory W t addr offset

/-- `i` yields the value that `sel` finds in the context. -/
structure IsIter (M : Machine) (i : Instruction) (sel : Ctx → Option Val) : Prop where
  operands : i.operandsLen M.W = 0
  results : i.resultsLen M.W = 1
  blocks : i.blockResults = []
  sem : ∀ ctx v, sel ctx = some v → M.instSem i ctx [] [] = pure [.val v]

theorem isIter_elem (t : Ty) : IsIter M (.iterElem t) Ctx.elem :=
  ⟨rfl, rfl, rfl, fun ctx v h => by
    show (require ctx.elem >>= fun v => pure [RVal.val v]) = _
    rw [h]; rfl⟩

theorem isIter_mapKey (t : Ty) : IsIter M (.iterMapKey t) Ctx.key :=
  ⟨rfl, rfl, rfl, fun ctx v h => by
    show (require ctx.key >>= fun v => pure [RVal.val v]) = _
    rw [h]; rfl⟩

theorem isIter_mapValue (t : Ty) : IsIter M (.iterMapValue t) Ctx.value :=
  ⟨rfl, rfl, rfl, fun ctx v h => by
    show (require ctx.value >>= fun v => pure [RVal.val v]) = _
    rw [h]; rfl⟩

theorem writeIter_ok {t : Ty} (ht : WriteOk M canon ra t) {i : Instruction}
    {sel : Ctx → Option Val} (hi : IsIter M i sel) (n : Nat) (offset : ArchitectureSize) :
    ∃ code n', Emits ra (writeIter M.W i t offset : RGen M.W canon Unit) [] n () [] code n' ∧
      ∀ ctx env v a, env.length = n → sel ctx = some v → ctx.base = some a →
        Computes M.step code ctx env n' (store M.toTarget t v (a + offset.eval M.p))
          fun _ _ => True := by
  obtain ⟨code, n', hemits, hcomp⟩ := ht n (n + 1) (n + 2) offset
  have hvalue : Emits ra (emit M.W i : RGen M.W canon Unit) [] n () [n] [Code.Stmt.mk (Op.inst i) [] []]
      (n + 1) := Emits.emit (by rw [hi.operands]; rfl) hi.blocks hi.results
  have hbase : Emits ra (emit M.W .iterBasePointer : RGen M.W canon Unit) [] (n + 1) ()
      [n + 1] [Code.Stmt.mk (Op.inst .iterBasePointer) [] []] (n + 2) := Emits.emit rfl rfl rfl
  refine ⟨_, _, hvalue.bind ((hbase.frame [n]).bind ((Emits.pop [n] (n + 1)).then hemits)), ?_⟩
  intro ctx env v a hn hv ha
  have hspec : store M.toTarget t v (a + offset.eval M.p) =
      (pure () >>= fun _ => pure () >>= fun _ =>
        store M.toTarget t v (a + offset.eval M.p)) := rfl
  rw [hspec]
  refine Computes.append (computes_value hn (hi.sem ctx v hv)) fun env₁ _ _ hlen₁ hv₁ =>
    Computes.append (computes_value hlen₁ (instSem_iterBasePointer ha))
      fun env₂ _ hpre₂ hlen₂ hptr => ?_
  exact hcomp ctx env₂ v a hlen₂ (getElem?_mono hpre₂ hv₁) hptr

/-- Buffers filled alike. -/
theorem agree_lowerBuffer {T : Target} {size align : Nat}
    {stores stores' : List (Nat → Exec Event Unit)}
    (h : List.Forall₂ (fun f g => ∀ a, Agree Eq (f a) (g a)) stores stores') :
    Agree Eq (lowerBuffer T size align stores) (lowerBuffer T size align stores') := by
  rw [lowerBuffer, lowerBuffer, ← h.length_eq]
  by_cases hlen : stores.length < 256 ^ T.p
  · rw [if_pos hlen, if_pos hlen]
    refine (Agree.refl _).bind ?_
    rintro ptr _ rfl
    refine (Agree.forM ?_).bind fun _ _ _ => Agree.refl _
    generalize slots ptr size stores.length = as
    clear hlen
    induction h generalizing as with
    | nil => simp
    | cons hfg _ ih =>
      cases as with
      | nil => exact .nil
      | cons a as => exact .cons (hfg a) (ih as)
  · rw [if_neg hlen, if_neg hlen]
    exact fun _ => rfl

theorem lowers_list {r : Realloc} {id : TypeId} {t : Ty} (ht : WriteOk M canon (some r) t) :
    Lowers M (some r) (lower M.W (.list id t) : RGen M.W canon Unit) x n 2
      (lowerFlat M.toTarget (.list id t)) := by
  rw [lower]
  refine Lowers.withRealloc fun name => ?_
  rw [isListCanonical, pure_bind]
  split
  · exact lowers_listCanon id t name
  · obtain ⟨code, n', hemits, hcomp⟩ := writeIter_ok ht (isIter_elem t) n default
    have hblock := Finishes.unitBlock hemits
    refine ⟨_, _, _, List.length_range' .., (hblock.frame [x]).emit rfl rfl rfl, ?_⟩
    intro ctx env v hn hx
    refine computes_inst hn (lookup_one hx) ?_
    have hsem : ∀ b, M.instSem (.listLower t name) ctx [b] [.val v] =
        (do
          let vs ← require v.asList
          let y ← lowerBuffer M.toTarget (M.size t) (M.align t) (vs.map fun v a =>
            Machine.runUnit b { ctx with elem := some v, base := some a })
          pure (Machine.pairResults y)) := fun b => rfl
    rw [List.map_cons, List.map_nil, hsem, lowerFlat]
    refine Agree.require fun vs _ => agree_pair (agree_lowerBuffer ?_)
    refine List.forall₂_map_left_iff.mpr (List.forall₂_map_right_iff.mpr ?_)
    refine List.forall₂_same.mpr fun u _ a => ?_
    have hrun := hcomp { ctx with elem := some u, base := some a } env u a hn rfl rfl
    rw [ArchitectureSize.eval_default, Nat.add_zero] at hrun
    exact runUnit_agree hrun

theorem lowers_map {r : Realloc} {id : TypeId} {k t : Ty} (hM : M.W.Lawful M.p)
    (hk : WriteOk M canon (some r) k) (ht : WriteOk M canon (some r) t) :
    Lowers M (some r) (lower M.W (.map id k t) : RGen M.W canon Unit) x n 2
      (lowerFlat M.toTarget (.map id k t)) := by
  rw [lower]
  refine Lowers.withRealloc fun name => ?_
  obtain ⟨offset, hoffset, hvalueOffset⟩ := valueOffset_ok (T := M.toTarget) hM k t
  rw [valueOffset, hoffset, orPanic, pure_bind]
  obtain ⟨keyCode, n₁, hkey, hkeyComp⟩ := writeIter_ok hk (isIter_mapKey k) n default
  obtain ⟨code, n', hvalue, hvalueComp⟩ := writeIter_ok ht (isIter_mapValue t) n₁ offset
  have hbody : Emits (some r) (do
      emit M.W (.iterMapKey k)
      emit M.W .iterBasePointer
      let keyAddr ← pop
      writeToMemory M.W k keyAddr default
      emit M.W (.iterMapValue t)
      emit M.W .iterBasePointer
      let valueAddr ← pop
      writeToMemory M.W t valueAddr offset : RGen M.W canon Unit) [] n () [] (keyCode ++ code)
      n' := by
    have hboth := hkey.bind (f := fun _ => writeIter M.W (.iterMapValue t) t offset) hvalue
    simpa only [writeIter, bind_assoc] using hboth
  have hblock := Finishes.unitBlock hbody
  refine ⟨_, _, _, List.length_range' .., (hblock.frame [x]).emit rfl rfl rfl, ?_⟩
  intro ctx env v hn hx
  refine computes_inst hn (lookup_one hx) ?_
  have hsem : ∀ b, M.instSem (.mapLower k t name) ctx [b] [.val v] =
      (do
        let es ← require v.asMap
        let y ← lowerBuffer M.toTarget (M.entrySize k t) (M.entryAlign k t) (es.map fun e a =>
          Machine.runUnit b { ctx with key := some e.1, value := some e.2, base := some a })
        pure (Machine.pairResults y)) := fun b => rfl
  rw [List.map_cons, List.map_nil, hsem, lowerFlat]
  refine Agree.require fun es _ => agree_pair (agree_lowerBuffer ?_)
  refine List.forall₂_map_left_iff.mpr (List.forall₂_map_right_iff.mpr ?_)
  refine List.forall₂_same.mpr fun e _ a => ?_
  have hfirst := hkeyComp { ctx with key := some e.1, value := some e.2, base := some a } env
    e.1 a hn rfl rfl
  rw [ArchitectureSize.eval_default, Nat.add_zero] at hfirst
  rw [hvalueOffset]
  exact runUnit_agree (Computes.append hfirst fun env₁ _ _ hlen₁ _ =>
    hvalueComp _ env₁ e.2 a hlen₁ rfl rfl)

/-- The elements of a fixed-length list, written in place. -/
theorem writes_fixedLengthList {id : TypeId} {t : Ty} {k : Nat}
    (ht : WriteOk M canon ra t) : WriteOk M canon ra (.fixedLengthList id t k) := by
  intro x addr n offset
  rw [writeToMemory]
  obtain ⟨code, n', hemits, hcomp⟩ := writeIter_ok ht (isIter_elem t) n offset
  have hblock := ((Finishes.unitBlock hemits).frame [x]).bind (f := fun _ => push addr)
    (Finishes.push addr)
  have hemit := hblock.emit (i := fun _ => .fixedLengthListLowerToMemory t k id) rfl rfl rfl
  rw [bind_assoc] at hemit
  refine ⟨_, _, hemit, ?_⟩
  intro ctx env v a hn hx haddr
  have hsem : ∀ b, M.instSem (.fixedLengthListLowerToMemory t k id) ctx [b] [.val v, .ptr a] =
      (do
        let vs ← require (v.asFixed k)
        ((slots a (M.size t) k).zip vs).forM fun y =>
          Machine.runUnit b { ctx with elem := some y.2, base := some y.1 }
        pure []) := fun b => rfl
  have hslots : slots (a + offset.eval M.p) (M.size t) k =
      (slots a (M.size t) k).map (· + offset.eval M.p) := by
    simp [slots, Function.comp_def, Nat.add_right_comm]
  refine (computes_inst (f := fun _ => []) hn (lookup_two hx haddr) ?_).mono
    fun _ _ _ _ _ => trivial
  show Agree _ (M.instSem _ ctx [execBlock M.step (.mk code []) env] _)
    (store M.toTarget (.fixedLengthList id t k) v (a + offset.eval M.p))
  rw [hsem, store]
  refine Agree.require fun vs _ => ?_
  have hloop : Agree Eq (((slots a (M.size t) k).zip vs).forM fun y =>
      Machine.runUnit (execBlock M.step (.mk code []) env)
        { ctx with elem := some y.2, base := some y.1 })
      (((slots (a + offset.eval M.p) (M.size t) k).zip vs).forM fun y =>
        store M.toTarget t y.2 y.1) := by
    rw [hslots, List.zip_map_left]
    refine Agree.forM (List.forall₂_map_right_iff.mpr (List.forall₂_same.mpr fun y _ => ?_))
    exact runUnit_agree (hcomp { ctx with elem := some y.2, base := some y.1 } env y.2 y.1 hn
      rfl rfl)
  have hunit := hloop.bind (f := fun _ => (pure [] : Machine.Results)) (g := pure)
    (S := fun rs _ => rs.length = 0 ∧ rs = []) fun _ _ _ => Agree.pure ⟨rfl, rfl⟩
  rwa [bind_pure] at hunit

/-! ## Members -/

/-- `i` takes a value apart into the `k` members `shape` finds in it. -/
structure IsDecompose (M : Machine) (i : Instruction) (k : Nat) (shape : Val → Option (List Val)) :
    Prop where
  operands : i.operandsLen M.W = 1
  results : i.resultsLen M.W = k
  blocks : i.blockResults = []
  length : ∀ v vs, shape v = some vs → vs.length = k
  sem : ∀ ctx v, M.instSem i ctx [] [.val v] =
    (require (shape v) >>= fun vs => pure (vs.map .val))

theorem asRecord_length {k : Nat} {v : Val} {vs : List Val} (h : v.asRecord k = some vs) :
    vs.length = k := by
  unfold Val.asRecord at h
  split at h
  · split at h
    · next hlen => cases h; exact hlen
    · cases h
  · cases h

theorem asFixed_length {k : Nat} {v : Val} {vs : List Val} (h : v.asFixed k = some vs) :
    vs.length = k := by
  unfold Val.asFixed at h
  split at h
  · split at h
    · next hlen => cases h; exact hlen
    · cases h
  · cases h

theorem IsDecompose.emits {i : Instruction} {k : Nat} {shape : Val → Option (List Val)}
    (h : IsDecompose M i k shape) : Emits ra (emit M.W i : RGen M.W canon Unit) [x] n ()
      (List.range' n k) [Code.Stmt.mk (Op.inst i) [x] []] (n + k) :=
  Emits.emit h.operands.symm h.blocks h.results

theorem IsDecompose.computes {i : Instruction} {k : Nat} {shape : Val → Option (List Val)}
    (h : IsDecompose M i k shape) {ctx : Ctx} {env : List RVal} {v : Val}
    (hn : env.length = n) (hx : env[x]? = some (.val v)) :
    Computes M.step [Code.Stmt.mk (Op.inst i) [x] []] ctx env (n + k) (require (shape v)) fun env' vs =>
      lookup env' (List.range' n k) = some (vs.map .val) := by
  refine computes_inst hn (lookup_one hx) ?_
  rw [List.map_nil, h.sem]
  exact agree_results fun vs hvs => by rw [List.length_map, h.length v vs hvs]

/-- The loop of `lower` over the members of a value. -/
theorem lowersEach {types : List Ty} (h : ∀ t ∈ types, LowerOk M canon ra t)
    {values : List Nat} (hlen : values.length = types.length) (n : Nat) :
    ∃ code outs n', outs.length = (types.map M.W.pushFlat).flatten.length ∧
      Emits ra (lowerEach (types.map (lower M.W)) values : RGen M.W canon Unit) [] n () outs
        code n' ∧
      ∀ ctx env vs, env.length = n → lookup env values = some (vs.map .val) →
        Computes M.step code ctx env n'
          ((types.zip vs).mapM fun y => lowerFlat M.toTarget y.1 y.2) fun env' wss =>
            lookup env' outs = some (wss.flatten.map .word) := by
  induction types generalizing values n with
  | nil =>
    refine ⟨[], [], n, rfl, Emits.pure, ?_⟩
    rintro ctx env vs rfl _
    exact Computes.nil (lookup_nil env)
  | cons t types ih =>
    obtain ⟨x, xs, rfl⟩ := List.exists_cons_of_length_eq_add_one hlen
    obtain ⟨code₁, outs₁, n₁, hlen₁, hemits₁, hcomp₁⟩ := h t List.mem_cons_self x n
    obtain ⟨code₂, outs₂, n₂, hlen₂, hemits₂, hcomp₂⟩ :=
      ih (fun t' ht' => h t' (List.mem_cons_of_mem _ ht')) (by simpa using hlen) n₁
    refine ⟨code₁ ++ code₂, outs₁ ++ outs₂, n₂, by simp [hlen₁, hlen₂],
      ((Emits.push x).then hemits₁).bind (hemits₂.above outs₁), ?_⟩
    intro ctx env vs hn hvs
    obtain ⟨v, us, rfl, hv, hus⟩ : ∃ v us, vs = v :: us ∧ env[x]? = some (.val v) ∧
        lookup env xs = some (us.map .val) := by
      cases vs with
      | nil => simpa using lookup_length hvs
      | cons v us => exact ⟨v, us, rfl, (lookup_cons_inv hvs).1, (lookup_cons_inv hvs).2⟩
    rw [List.zip_cons_cons, List.mapM_cons]
    refine Computes.append (hcomp₁ ctx env v hn hv) fun env₁ ws hpre₁ henv₁ hws => ?_
    have hrest := hcomp₂ ctx env₁ us henv₁ (lookup_mono hpre₁ hus)
    rw [← map_eq_pure_bind]
    refine hrest.map fun env₂ wss hpre₂ _ hwss => ?_
    rw [List.flatten_cons, List.map_append]
    exact lookup_append (lookup_mono hpre₂ hws) hwss

theorem lowers_members {i : Instruction} {types : List Ty} {shape : Val → Option (List Val)}
    (hi : IsDecompose M i types.length shape) (h : ∀ t ∈ types, LowerOk M canon ra t) :
    Lowers M ra (do
      emit M.W i
      let values ← drain types.length
      lowerEach (types.map (lower M.W)) values : RGen M.W canon Unit) x n
      (types.map M.W.pushFlat).flatten.length (fun v => do
        let vs ← require (shape v)
        let wss ← (types.zip vs).mapM fun y => lowerFlat M.toTarget y.1 y.2
        pure wss.flatten) := by
  have hvalues : (List.range' n types.length).length = types.length := List.length_range' ..
  obtain ⟨code, outs, n', hlen, hemits, hcomp⟩ := lowersEach h hvalues (n + types.length)
  refine ⟨_, _, _, hlen, hi.emits.bind ((Emits.drain hvalues).then hemits), ?_⟩
  intro ctx env v hn hx
  refine Computes.append (hi.computes hn hx) fun env₁ vs _ hlen₁ hvs => ?_
  rw [← map_eq_pure_bind]
  exact (hcomp ctx env₁ vs hlen₁ hvs).map fun _ _ _ _ hwss => hwss

/-- The loop of `writeFieldsToMemory`. -/
theorem writesEach {items : List (ArchitectureSize × Ty)}
    (h : ∀ y ∈ items, WriteOk M canon ra y.2) {values : List Nat}
    (hlen : values.length = items.length) (addr n : Nat) (offset : ArchitectureSize) :
    ∃ code n', Emits ra
      (((items.map fun y => (y.1, y.2, writeToMemory M.W y.2)).zip values).forM fun y => do
        (push y.2 : RGen M.W canon Unit)
        y.1.2.2 addr (offset + y.1.1)) [] n ⟨⟩ [] code n' ∧
      ∀ ctx env vs a, env.length = n → lookup env values = some (vs.map .val) →
        env[addr]? = some (.ptr a) →
        Computes M.step code ctx env n' ((items.zip vs).forM fun y =>
          store M.toTarget y.1.2 y.2 (a + offset.eval M.p + y.1.1.eval M.p)) fun _ _ => True := by
  induction items generalizing values n with
  | nil =>
    refine ⟨[], n, Emits.pure, ?_⟩
    rintro ctx env vs a rfl _ _
    exact Computes.nil trivial
  | cons y items ih =>
    obtain ⟨x, xs, rfl⟩ := List.exists_cons_of_length_eq_add_one hlen
    obtain ⟨code₁, n₁, hemits₁, hcomp₁⟩ := h y List.mem_cons_self x addr n (offset + y.1)
    obtain ⟨code₂, n₂, hemits₂, hcomp₂⟩ :=
      ih (fun y' hy' => h y' (List.mem_cons_of_mem _ hy')) (by simpa using hlen) n₁
    refine ⟨code₁ ++ code₂, n₂, ((Emits.push x).then hemits₁).bind hemits₂, ?_⟩
    intro ctx env vs a hn hvs haddr
    obtain ⟨v, us, rfl, hv, hus⟩ : ∃ v us, vs = v :: us ∧ env[x]? = some (.val v) ∧
        lookup env xs = some (us.map .val) := by
      cases vs with
      | nil => simpa using lookup_length hvs
      | cons v us => exact ⟨v, us, rfl, (lookup_cons_inv hvs).1, (lookup_cons_inv hvs).2⟩
    rw [List.zip_cons_cons]
    have hfirst := hcomp₁ ctx env v a hn hv haddr
    simp only [ArchitectureSize.eval_add, ← Nat.add_assoc] at hfirst
    exact Computes.append hfirst fun env₁ _ hpre₁ henv₁ _ =>
      hcomp₂ ctx env₁ us a henv₁ (lookup_mono hpre₁ hus) (getElem?_mono hpre₁ haddr)

theorem FieldsLower.decompose {ty : Ty} {types : List Ty} {i : Instruction}
    (h : FieldsLower ty types i) : IsDecompose M i types.length (Val.asRecord types.length) := by
  cases h with
  | record =>
    rw [List.length_map]
    exact ⟨rfl, rfl, rfl, fun _ _ => asRecord_length, fun _ _ => rfl⟩
  | tuple => exact ⟨rfl, rfl, rfl, fun _ _ => asRecord_length, fun _ _ => rfl⟩

theorem lowers_fields {ty : Ty} {types : List Ty} (hM : M.W.Lawful M.p)
    (hf : ty.fieldTypes = some types) (h : ∀ t ∈ types, LowerOk M canon ra t) :
    LowerOk M canon ra ty := by
  intro x n
  obtain ⟨i, hfields, hlower, -⟩ := lower_fields_eq (W := M.W) (B := recorder M.W canon) hf
  have hi := hfields.decompose (M := M)
  rw [hlower, hM.flat_fields ty types hf]
  refine (lowers_members hi h).congr fun v => ?_
  rw [lowerFlat_fields hf, lowerFields, List.length_map]
  simp only [List.zip_map_left, List.mapM_map]
  rfl

/-- The fields in memory order, each at its offset. -/
theorem writeFieldsToMemory_eq {T : Target} (hT : T.W.Lawful T.p) {B : Bindgen} (types : List Ty)
    (g : Ty → B.Operand → ArchitectureSize → Gen B Unit) (addr : B.Operand)
    (offset : ArchitectureSize) :
    writeFieldsToMemory T.W (types.map fun t => (t, g t)) addr offset = (do
      let fields ← drain types.length
      (((T.W.fieldOffsets types).map fun y => (y.1, y.2, g y.2)).zip fields).forM fun y => do
        push y.2
        y.1.2.2 addr (offset + y.1.1)) := by
  have hids : (types.map fun t => (t, g t)).map (·.1) = types := by
    rw [List.map_map]; exact List.map_id _
  unfold writeFieldsToMemory
  rw [List.length_map, hids]
  congr 1
  funext fields
  rw [fieldOffsets_map hT types]
  dsimp only
  rw [List.zip_map']

/-- Writing `types` as the fields of a record, from values on the stack. -/
theorem writesFields {types : List Ty} (hM : M.W.Lawful M.p)
    (h : ∀ t ∈ types, WriteOk M canon ra t) {values : List Nat}
    (hlen : values.length = types.length) (addr n : Nat) (offset : ArchitectureSize) :
    ∃ code n', Emits ra (writeFieldsToMemory M.W (types.map fun t => (t, writeToMemory M.W t))
        addr offset : RGen M.W canon Unit) values n () [] code n' ∧
      ∀ ctx env vs a, env.length = n → lookup env values = some (vs.map .val) →
        env[addr]? = some (.ptr a) →
        Computes M.step code ctx env n' (((M.W.fieldOffsets types).zip vs).forM fun y =>
          store M.toTarget y.1.2 y.2 (a + offset.eval M.p + y.1.1.eval M.p)) fun _ _ => True := by
  have hoffsets : (M.W.fieldOffsets types).length = types.length := by
    have hids := congrArg List.length (hM.fieldOffsets_types types)
    rwa [List.length_map] at hids
  have hmem : ∀ y ∈ M.W.fieldOffsets types, WriteOk M canon ra y.2 := by
    intro y hy
    refine h y.2 ?_
    rw [← hM.fieldOffsets_types types]
    exact List.mem_map_of_mem hy
  obtain ⟨code, n', hemits, hcomp⟩ := writesEach hmem (hlen.trans hoffsets.symm) addr n offset
  refine ⟨code, n', ?_, hcomp⟩
  rw [writeFieldsToMemory_eq (T := M.toTarget) hM types (writeToMemory M.W)]
  exact (Emits.drain hlen).then hemits

theorem writes_fields {ty : Ty} {types : List Ty} (hM : M.W.Lawful M.p)
    (hf : ty.fieldTypes = some types) (h : ∀ t ∈ types, WriteOk M canon ra t) :
    WriteOk M canon ra ty := by
  intro x addr n offset
  obtain ⟨i, hfields, -, hwrite⟩ := lower_fields_eq (W := M.W) (B := recorder M.W canon) hf
  have hi := hfields.decompose (M := M)
  have hvalues : (List.range' n types.length).length = types.length := List.length_range' ..
  obtain ⟨code, n', hemits, hcomp⟩ :=
    writesFields hM h hvalues addr (n + types.length) offset
  rw [hwrite]
  refine ⟨_, _, hi.emits.bind hemits, ?_⟩
  intro ctx env v a hn hx haddr
  beta_reduce
  rw [store_fields hf, storeFields_eq (T := M.toTarget) hM]
  exact Computes.append (hi.computes hn hx) fun env₁ vs hpre hlen₁ hvs =>
    hcomp ctx env₁ vs a hlen₁ hvs (getElem?_mono hpre haddr)

theorem lowers_fixedLengthList {id : TypeId} {t : Ty} {k : Nat} (hM : M.W.Lawful M.p)
    (h : 0 < k → LowerOk M canon ra t) : LowerOk M canon ra (.fixedLengthList id t k) := by
  intro x n
  have hi : IsDecompose M (.fixedLengthListLower t k id) (List.replicate k t).length
      (Val.asFixed k) := by
    rw [List.length_replicate]
    exact ⟨rfl, rfl, rfl, fun _ _ => asFixed_length, fun _ _ => rfl⟩
  have hmem : ∀ t' ∈ List.replicate k t, LowerOk M canon ra t' := by
    intro t' ht'
    obtain ⟨hne, rfl⟩ := List.mem_replicate.mp ht'
    exact h (Nat.pos_of_ne_zero hne)
  have hmembers := lowers_members (x := x) (n := n) hi hmem
  rw [lower, hM.flat_fixedLengthList]
  rw [List.length_replicate, List.map_replicate, List.map_replicate] at hmembers
  refine hmembers.congr fun v => ?_
  rw [lowerFlat]
  cases hv : v.asFixed k with
  | none => rfl
  | some vs =>
    rw [require_some, pure_bind, pure_bind, ← asFixed_length hv, zip_replicate_left,
      List.mapM_map]
    rfl

/-! ## Arms -/

/-- `i` runs the block of the active case on its payload. -/
structure IsLowerCase (M : Machine) (i : Instruction) (arms : List (Option Ty)) (k : Nat) :
    Prop where
  operands : i.operandsLen M.W = 1
  results : i.resultsLen M.W = k
  blocks : i.blockResults = List.replicate arms.length k
  sem : ∀ ctx blocks x, M.instSem i ctx blocks [x] = Machine.lowerCase arms ctx blocks x

theorem ArmsLower.lowerCase {ty : Ty} {arms : List (Option Ty)} {i : List WasmType → Instruction}
    (h : ArmsLower ty arms i) (results : List WasmType) :
    IsLowerCase M (i results) arms results.length := by
  cases h with
  | variant => exact ⟨rfl, rfl, by rw [List.length_map]; rfl, fun _ _ _ => rfl⟩
  | option | result => exact ⟨rfl, rfl, rfl, fun _ _ _ => rfl⟩

theorem asVariant_arm {arms : List (Option Ty)} {v : Val} {i : Nat} {payload : Option (Ty × Val)}
    (h : v.asVariant arms = some (i, payload)) : arms[i]? = some (payload.map (·.1)) := by
  unfold Val.asVariant at h
  split at h
  · split at h
    · next harm => cases h; exact harm
    · next harm => cases h; exact harm
    · cases h
  · cases h

/-- Picking a block by the active case. -/
theorem agree_lowerCase {β : Type} {arms : List (Option Ty)} {ctx : Ctx}
    {blocks : List Machine.BlockRun} {v : Val} {k : Nat}
    {s : Nat → Option (Ty × Val) → Exec Event β} {f : β → List RVal}
    (hlen : blocks.length = arms.length)
    (h : ∀ i b payload, blocks[i]? = some b → arms[i]? = some (payload.map Prod.fst) →
      Agree (fun rs y => rs.length = k ∧ rs = f y)
        (b { ctx with payload := payload.map Prod.snd }) (s i payload)) :
    Agree (fun rs y => rs.length = k ∧ rs = f y) (Machine.lowerCase arms ctx blocks (.val v))
      (require (v.asVariant arms) >>= fun y => s y.1 y.2) := by
  rw [Machine.lowerCase, RVal.asVal_val, require_some, pure_bind]
  refine Agree.require fun y hy => ?_
  obtain ⟨i, payload⟩ := y
  have harm := asVariant_arm hy
  have hi : i < blocks.length := by
    rw [hlen]
    exact (List.getElem?_eq_some_iff.mp harm).1
  have hb := List.getElem?_eq_getElem hi
  show Agree _ (require blocks[i]? >>= fun b => b { ctx with payload := payload.map Prod.snd }) _
  rw [hb, require_some, pure_bind]
  exact h i blocks[i] payload hb harm

/-- The prologue of an arm: the payload's name and the discriminant. -/
def armPrologue (i : Nat) : List CStmt :=
  [Code.Stmt.mk (Op.inst .variantPayloadName) [] []] ++
    [Code.Stmt.mk (Op.inst (.i32Const (BitVec.ofNat 32 i))) [] []]

theorem armPrologue_computes (i n : Nat) {ctx : Ctx} {env : List RVal} (hn : env.length = n) :
    Computes M.step (armPrologue i) ctx env (n + 2) (pure ()) fun env' _ =>
      env'[n + 1]? = some (.word (disc i)) ∧
        ∀ v, ctx.payload = some v → env'[n]? = some (.val v) := by
  obtain ⟨r, hr, hpayload⟩ : ∃ r, M.instSem .variantPayloadName ctx [] [] = pure [r] ∧
      ∀ v, ctx.payload = some v → r = .val v := by
    rcases ctx with ⟨_, _, _, _, _, _ | v⟩
    · exact ⟨.nothing, rfl, by simp⟩
    · exact ⟨.val v, rfl, by simp⟩
  have hspec : (pure () : Exec Event Unit) = (pure () >>= fun _ => pure ()) := rfl
  rw [armPrologue, hspec]
  refine Computes.append (computes_value hn hr) fun env₁ _ _ hlen₁ hr₁ => ?_
  refine (computes_value hlen₁ (r := .word (disc i)) rfl).mono fun env₂ _ hpre₂ _ hdisc => ?_
  refine ⟨hdisc, fun v hv => ?_⟩
  rw [← hpayload v hv]
  exact getElem?_mono hpre₂ hr₁

theorem armPrologue_emits (i n : Nat) {f : Nat → RGen M.W canon Unit} {outs : List Nat}
    {code : List CStmt} {n' : Nat} (h : Emits ra (f n) [n + 1] (n + 2) () outs code n') :
    Emits ra (do
      emit M.W .variantPayloadName
      let payloadName ← pop
      emit M.W (.i32Const (BitVec.ofNat 32 i))
      f payloadName) [] n () outs (armPrologue i ++ code) n' := by
  have hname : Emits ra (emit M.W .variantPayloadName : RGen M.W canon Unit) [] n () [n]
      [Code.Stmt.mk (Op.inst .variantPayloadName) [] []] (n + 1) := Emits.emit rfl rfl rfl
  have hdisc : Emits ra (emit M.W (.i32Const (BitVec.ofNat 32 i)) : RGen M.W canon Unit) []
      (n + 1) () [n + 1] [Code.Stmt.mk (Op.inst (.i32Const (BitVec.ofNat 32 i))) [] []] (n + 2) :=
    Emits.emit rfl rfl rfl
  rw [armPrologue, List.append_assoc]
  exact hname.bind ((Emits.pop [] n).then (hdisc.bind h))

variable (M canon ra) in
/-- The zeros behind what an arm has pushed. -/
theorem constZero_ok (results : List WasmType) (pushed n : Nat) :
    ∃ code outs n', outs.length = results.length - pushed ∧
      Emits ra (if pushed < results.length then emit M.W (.constZero (results.drop pushed))
        else pure () : RGen M.W canon Unit) [] n () outs code n' ∧
      ∀ ctx env, env.length = n →
        Computes M.step code ctx env n' (pure (zeros (results.drop pushed))) fun env' ws =>
          lookup env' outs = some (ws.map .word) := by
  split
  · have hemits : Emits ra (emit M.W (.constZero (results.drop pushed)) : RGen M.W canon Unit)
        [] n () (List.range' n (results.drop pushed).length)
        [Code.Stmt.mk (Op.inst (.constZero (results.drop pushed))) [] []]
        (n + (results.drop pushed).length) := Emits.emit rfl rfl rfl
    refine ⟨_, _, _, by rw [List.length_range', List.length_drop], hemits, ?_⟩
    intro ctx env hn
    exact computes_inst hn (lookup_nil env) (Agree.pure ⟨by simp, rfl⟩)
  · next hle =>
      refine ⟨[], [], n, by simp; omega, Emits.pure, ?_⟩
      rintro ctx env rfl
      rw [List.drop_eq_nil_of_le (by omega)]
      exact Computes.nil rfl

/-- What an arm is lowered to in the slots of its variant. -/
def armWords (T : Target) (slots : List WasmType) (i : Nat) :
    Option (Ty × Val) → Exec Event (List Word)
  | none => pure (disc i :: zeros slots)
  | some (t, v) => do
      let ws ← lowerFlat T t v
      let ws' ← require (castWords T.p (T.W.pushFlat t) slots ws)
      pure (disc i :: (ws' ++ zeros (slots.drop (T.W.pushFlat t).length)))

/-- The block of the case `y`, in a scope of `n` values. -/
def LowerArmBlock (M : Machine) (slots : List WasmType) (n : Nat) (y : Option Ty × Nat)
    (b : CBlock) : Prop :=
  b.results.length = slots.length + 1 ∧ ∀ (ctx : Ctx) env payload, env.length = n →
    y.1 = payload.map Prod.fst →
    Agree (fun rs ws => rs.length = slots.length + 1 ∧ rs = ws.map .word)
      (execBlock M.step b env { ctx with payload := payload.map Prod.snd })
      (armWords M.toTarget slots y.2 payload)

theorem lowerVariantArm_ok (hM : M.W.Lawful M.p) {slots : List WasmType} {arm : Option Ty}
    (harm : ∀ t, arm = some t → LowerOk M canon ra t ∧
      (M.W.pushFlat t).length ≤ maxFlatParams ∧ (M.W.pushFlat t).length ≤ slots.length ∧
      List.Forall₂ WasmType.JoinsInto (M.W.pushFlat t) (slots.take (M.W.pushFlat t).length))
    (ops : List Nat) (i n : Nat) : ∃ b, LowerArmBlock M slots n (arm, i) b ∧ Finishes ra (lowerVariantArm M.W (.i32 :: slots) i
      (arm.map fun t => (t, lower M.W t)) : RGen M.W canon Unit) ops n () ops [b] := by
  cases arm with
  | none =>
    obtain ⟨code, outs, n', hlen, hemits, hcomp⟩ := constZero_ok M canon ra
      (.i32 :: slots) 1 (n + 2)
    refine ⟨.mk (armPrologue i ++ code) ([n + 1] ++ outs), ⟨?_, ?_⟩, Finishes.block
      ((armPrologue_emits i n (Emits.pure.then (hemits.above [n + 1]))).above ops) ?_⟩
    · simp [Code.Block.results, hlen]
    · rintro ctx env (_ | ⟨t, v⟩) hn hpayload
      · have hzeros : Computes M.step (armPrologue i ++ code)
            { ctx with payload := none } env n' (armWords M.toTarget slots i none)
            fun env' ws => lookup env' ([n + 1] ++ outs) = some (ws.map .word) := by
          have hspec : armWords M.toTarget slots i none =
              (pure () >>= fun _ => (disc i :: ·) <$> pure (zeros slots)) := rfl
          rw [hspec]
          refine Computes.append (armPrologue_computes i n hn) fun env₁ _ _ hlen₁ hdisc => ?_
          refine (hcomp _ env₁ hlen₁).map fun env₂ ws hpre₂ _ hws => ?_
          exact lookup_cons (getElem?_mono hpre₂ hdisc.1) hws
        exact (execBlock_agree hzeros).mono fun rs ws h => ⟨by rw [h.1]; simp [hlen], h.2⟩
      · cases hpayload
    · simp [hlen]
  | some t =>
    obtain ⟨hok, hmax, hfit, hjoin⟩ := harm t rfl
    obtain ⟨code, outs, n₁, hlen, hemits, hcomp⟩ := hok n (n + 2)
    obtain ⟨casts, hcasts, hcastsLen⟩ := castAll_into hjoin
    obtain ⟨code₁, outs₁, n₂, hlen₁, hemits₁, hcomp₁⟩ :=
      emitCasts_ok canon ra hM.width hcasts (by rw [hlen, hcastsLen]) n₁
    obtain ⟨code₂, outs₂, n₃, hlen₂, hemits₂, hcomp₂⟩ := constZero_ok M canon ra
      (.i32 :: slots) (1 + (M.W.pushFlat t).length) n₂
    have hdrop : (WasmType.i32 :: slots).drop (1 + (M.W.pushFlat t).length) =
        slots.drop (M.W.pushFlat t).length := by rw [Nat.add_comm, List.drop_succ_cons]
    have hsum : ([n + 1] ++ outs₁ ++ outs₂).length = slots.length + 1 := by
      simp only [List.length_append, List.length_cons, List.length_nil] at hlen₂ ⊢
      omega
    -- the payload is lowered on top of the discriminant, cast, and padded
    refine ⟨.mk (armPrologue i ++ (code ++ (code₁ ++ code₂))) ([n + 1] ++ outs₁ ++ outs₂),
      ⟨?_, ?_⟩, Finishes.block ((armPrologue_emits i n ((Emits.push n).then
        ((hemits.frame [n + 1]).bind ((Emits.flatTypes hmax).then ((hemits₁.frame [n + 1]).bind
          (Emits.pure.then (hemits₂.above ([n + 1] ++ outs₁)))))))).above ops) ?_⟩
    · exact hsum
    · rintro ctx env (_ | ⟨t', v⟩) hn hpayload
      · cases hpayload
      obtain rfl : t = t' := Option.some.inj hpayload
      have hwords : Computes M.step (armPrologue i ++ (code ++ (code₁ ++ code₂)))
          { ctx with payload := some v } env n₃ (armWords M.toTarget slots i (some (t, v)))
          fun env' ws => lookup env' ([n + 1] ++ outs₁ ++ outs₂) = some (ws.map .word) := by
        have hspec : armWords M.toTarget slots i (some (t, v)) =
            (pure () >>= fun _ => lowerFlat M.toTarget t v >>= fun ws =>
              require (castWords M.p (M.W.pushFlat t) slots ws) >>= fun ws' =>
                (fun zs => disc i :: (ws' ++ zs)) <$>
                  pure (zeros (slots.drop (M.W.pushFlat t).length))) := rfl
        rw [hspec]
        refine Computes.append (armPrologue_computes i n hn) fun env₁ _ _ henv₁ hdisc => ?_
        refine Computes.append (hcomp _ env₁ v henv₁ (hdisc.2 v rfl))
          fun env₂ ws hpre₂ henv₂ hws => ?_
        refine Computes.append (hcomp₁ _ env₂ ws henv₂ hws) fun env₃ ws' hpre₃ henv₃ hws' => ?_
        have hzeros := hcomp₂ { ctx with payload := some v } env₃ henv₃
        rw [hdrop] at hzeros
        refine hzeros.map fun env₄ zs hpre₄ _ hzs => ?_
        have hdisc₄ := getElem?_mono (hpre₂.trans (hpre₃.trans hpre₄)) hdisc.1
        rw [List.append_assoc, List.map_cons, List.map_append]
        show lookup env₄ ((n + 1) :: (outs₁ ++ outs₂)) = _
        exact lookup_cons hdisc₄ (lookup_append (lookup_mono hpre₄ hws') hzs)
      exact (execBlock_agree hwords).mono fun rs ws h =>
        ⟨h.1.trans hsum, h.2⟩
    · exact hsum

theorem lowerFlat_armWords {T : Target} {ty : Ty} {arms : List (Option Ty)}
    (ha : ty.arms = some arms) (v : Val) : lowerFlat T ty v =
      (require (v.asVariant arms) >>= fun y => armWords T (T.slotTys ty) y.1 y.2) := by
  rw [lowerFlat_arms ha, lowerArm, Val.asVariant_map]
  cases v.asVariant arms with
  | none => rfl
  | some y =>
    obtain ⟨i, payload⟩ := y
    cases payload <;> rfl

theorem lowers_arms {ty : Ty} {arms : List (Option Ty)} (hM : M.W.Lawful M.p)
    (ha : ty.arms = some arms) (hflat : (M.W.pushFlat ty).length ≤ maxFlatParams)
    (h : ∀ t, some t ∈ arms → LowerOk M canon ra t) : LowerOk M canon ra ty := by
  intro x n
  obtain ⟨slots, hslots, hjoin⟩ := hM.flat_arms ty arms ha
  obtain ⟨i, harms, hlower, -⟩ := lower_arms_eq (W := M.W) (B := recorder M.W canon) ha
  have hi := harms.lowerCase (M := M)
  have hslotTys : M.toTarget.slotTys ty = slots := by rw [Target.slotTys, hslots, List.tail_cons]
  have harm : ∀ y ∈ arms.zipIdx, ∃ b, LowerArmBlock M slots n y b ∧
      Finishes ra (lowerVariantArm M.W (.i32 :: slots) y.2
        (y.1.map fun t => (t, lower M.W t)) : RGen M.W canon Unit) [x] n () [x] [b] := by
    rintro ⟨arm, i⟩ hy
    refine lowerVariantArm_ok hM (fun t ht => ?_) [x] i n
    obtain rfl : arm = some t := ht
    have hmem : some t ∈ arms := List.fst_mem_of_mem_zipIdx hy
    obtain ⟨hfit, hjoins⟩ := hjoin t hmem
    refine ⟨h t hmem, ?_, hfit, hjoins⟩
    rw [hslots, List.length_cons] at hflat
    omega
  obtain ⟨blocks, hblocks, hfinish⟩ := Finishes.forM arms.zipIdx harm
  have hlen : blocks.length = arms.length := by
    rw [← hblocks.length_eq, List.length_zipIdx]
  have hresults : blocks.map (·.results.length) =
      List.replicate arms.length (slots.length + 1) := by
    rw [blockResults_of hblocks fun _ _ hb => hb.1]
    simp
  have hloop : ((arms.map fun o => o.map fun t => (t, lower M.W t)).zipIdx.forM fun y =>
      lowerVariantArm M.W (.i32 :: slots) y.2 y.1 : RGen M.W canon PUnit) =
      arms.zipIdx.forM fun y => lowerVariantArm M.W (.i32 :: slots) y.2
        (y.1.map fun t => (t, lower M.W t)) := by
    simp [List.zipIdx_map, List.forM_map]
  have hall : Finishes ra (lowerVariantArms M.W ty
      (arms.map fun o => o.map fun t => (t, lower M.W t)) : RGen M.W canon (List WasmType))
      [x] n (.i32 :: slots) [x] blocks := by
    rw [← hloop] at hfinish
    have hflatTypes : Finishes ra (flatTypes M.W ty : RGen M.W canon (List WasmType)) [x] n
        (.i32 :: slots) [x] [] := hslots ▸ Finishes.flatTypes hflat
    have htail := hfinish.bind (f := fun _ => (pure (.i32 :: slots) : RGen M.W canon _))
      Finishes.pure
    rw [List.append_nil] at htail
    exact hflatTypes.bind htail
  have hemits := hall.emit (i := i) (hi (.i32 :: slots)).operands.symm
    (hresults.trans (hi (.i32 :: slots)).blocks.symm) (hi (.i32 :: slots)).results
  rw [hlower]
  refine ⟨_, _, _, ?_, hemits, ?_⟩
  · rw [List.length_range', hslots]
  intro ctx env v hn hx
  refine computes_inst hn (lookup_one hx) ?_
  rw [(hi _).sem, lowerFlat_armWords ha, hslotTys]
  refine agree_lowerCase (by rw [List.length_map, hlen]) fun j b payload hb hpayload => ?_
  rw [List.getElem?_map, Option.map_eq_some_iff] at hb
  obtain ⟨blk, hblk, rfl⟩ := hb
  have harmAt : arms.zipIdx[j]? = some (payload.map Prod.fst, j) := by simp [hpayload]
  exact (block_at hblocks hblk harmAt).2 ctx env payload hn rfl

/-- What is stored of an arm: its discriminant, and its payload behind it. -/
def armStore (T : Target) (tagBytes payloadOffset i : Nat) (payload : Option (Ty × Val))
    (a : Nat) : Exec Event Unit := do
  storeNat a tagBytes (disc i).bits
  match payload with
  | none => pure ()
  | some (t, v) => store T t v (a + payloadOffset)

theorem store_armStore {T : Target} {ty : Ty} {arms : List (Option Ty)} (ha : ty.arms = some arms)
    (v : Val) (a : Nat) : store T ty v a = (require (v.asVariant arms) >>= fun y =>
      armStore T (T.tagBytes ty) (T.payloadOffset ty arms) y.1 y.2 a) := by
  rw [store_arms ha, storeArm, Val.asVariant_map]
  cases v.asVariant arms with
  | none => rfl
  | some y =>
    obtain ⟨i, payload⟩ := y
    cases payload <;> rfl

/-- The block that stores the case `y` to the address at `addr`. -/
def WriteArmBlock (M : Machine) (tag : IntRepr) (offset payloadOffset : ArchitectureSize)
    (addr n : Nat) (y : Option Ty × Nat) (b : CBlock) : Prop :=
  b.results = [] ∧ ∀ (ctx : Ctx) env payload a, env.length = n → env[addr]? = some (.ptr a) →
    y.1 = payload.map Prod.fst →
    Agree (fun rs _ => rs.length = 0 ∧ rs = [])
      (execBlock M.step b env { ctx with payload := payload.map Prod.snd })
      (armStore M.toTarget tag.bytes (payloadOffset.eval M.p) y.2 payload (a + offset.eval M.p))

theorem writeVariantArm_ok {tag : IntRepr} (htag : tag ≠ .u64) {arm : Option Ty}
    (h : ∀ t, arm = some t → WriteOk M canon ra t) (offset payloadOffset : ArchitectureSize)
    (ops : List Nat) (addr i n : Nat) :
    ∃ b, WriteArmBlock M tag offset payloadOffset addr n (arm, i) b ∧
      Finishes ra (writeVariantArm M.W offset (offset + payloadOffset) addr tag i
        (arm.map fun t => (t, writeToMemory M.W t)) : RGen M.W canon Unit) ops n () ops [b] := by
  obtain ⟨inst, hinst, hstore⟩ := isStore_intrepr M canon offset htag
  have htagEmits : Emits ra (storeIntrepr M.W offset tag : RGen M.W canon Unit) [n + 1, addr]
      (n + 2) () [] [Code.Stmt.mk (Op.inst inst) [n + 1, addr] []] (n + 2) := hinst ▸ hstore.emits (n + 1)
  -- the discriminant is stored before the payload is touched
  have hdisc : ∀ (ctx : Ctx) env a, env.length = n → env[addr]? = some (.ptr a) →
      Computes M.step (armPrologue i ++ [Code.Stmt.mk (Op.inst inst) [n + 1, addr] []]) ctx env (n + 2)
        (storeNat (a + offset.eval M.p) tag.bytes (disc i).bits) fun env' _ =>
          ∀ v, ctx.payload = some v → env'[n]? = some (.val v) := by
    intro ctx env a hn haddr
    have hspec : storeNat (ε := Event) (a + offset.eval M.p) tag.bytes (disc i).bits =
        (pure () >>= fun _ => storeNat (a + offset.eval M.p) tag.bytes (disc i).bits) := rfl
    rw [hspec]
    refine Computes.append (armPrologue_computes i n hn) fun env₁ _ hpre₁ henv₁ hd => ?_
    refine (hstore.computes ctx henv₁ hd.1 (getElem?_mono hpre₁ haddr)).mono
      fun env₂ _ hpre₂ _ _ v hv => getElem?_mono hpre₂ (hd.2 v hv)
  cases arm with
  | none =>
    refine ⟨_, ⟨rfl, ?_⟩, Finishes.effectBlock (armPrologue_emits i n ((Emits.push addr).then
      (htagEmits.bind Emits.pure))) ops⟩
    rintro ctx env (_ | ⟨t, v⟩) a hn haddr hpayload
    · have hall := hdisc { ctx with payload := none } env a hn haddr
      have hspec : armStore M.toTarget tag.bytes (payloadOffset.eval M.p) i none
          (a + offset.eval M.p) =
          storeNat (a + offset.eval M.p) tag.bytes (disc i).bits := bind_pure _
      rw [← hspec] at hall
      rw [List.append_nil]
      exact execBlock_agree (f := fun _ => []) (hall.mono fun env' _ _ _ _ => lookup_nil env')
    · cases hpayload
  | some t =>
    obtain ⟨code, n', hemits, hcomp⟩ := h t rfl n addr (n + 2) (offset + payloadOffset)
    refine ⟨_, ⟨rfl, ?_⟩, Finishes.effectBlock (armPrologue_emits i n ((Emits.push addr).then
      (htagEmits.bind ((Emits.push n).then hemits)))) ops⟩
    rintro ctx env (_ | ⟨t', v⟩) a hn haddr hpayload
    · cases hpayload
    obtain rfl : t = t' := Option.some.inj hpayload
    have hall : Computes M.step (armPrologue i ++ ([Code.Stmt.mk (Op.inst inst) [n + 1, addr] []] ++ code))
        { ctx with payload := some v } env n'
        (armStore M.toTarget tag.bytes (payloadOffset.eval M.p) i (some (t, v))
          (a + offset.eval M.p)) fun _ _ => True := by
      rw [← List.append_assoc]
      refine Computes.append (hdisc { ctx with payload := some v } env a hn haddr)
        fun env₁ _ hpre₁ henv₁ hv => ?_
      have hpayloadStore := hcomp { ctx with payload := some v } env₁ v a henv₁ (hv v rfl)
        (getElem?_mono hpre₁ haddr)
      simpa only [ArchitectureSize.eval_add, Nat.add_assoc] using hpayloadStore
    exact execBlock_agree (f := fun _ => []) (hall.mono fun env' _ _ _ _ => lookup_nil env')

theorem writes_arms {ty : Ty} {arms : List (Option Ty)} (hM : M.W.Lawful M.p)
    (ha : ty.arms = some arms) (h : ∀ t, some t ∈ arms → WriteOk M canon ra t) :
    WriteOk M canon ra ty := by
  intro x addr n offset
  obtain ⟨i, harms, -, hwrite⟩ := lower_arms_eq (W := M.W) (B := recorder M.W canon) ha
  have hi := harms.lowerCase (M := M)
  have htag : M.W.armTag ty ≠ .u64 := by
    cases ty with
    | variant id name cases => exact hM.tag_ne_u64 cases.length
    | _ => simp [WitParser.armTag]
  have harm : ∀ y ∈ arms.zipIdx, ∃ b,
      WriteArmBlock M (M.W.armTag ty) offset (M.W.payloadOffset (M.W.armTag ty) arms) addr n y b ∧
      Finishes ra (writeVariantArm M.W offset
        (offset + M.W.payloadOffset (M.W.armTag ty) arms) addr (M.W.armTag ty) y.2
        (y.1.map fun t => (t, writeToMemory M.W t)) : RGen M.W canon Unit) [x] n () [x] [b] := by
    rintro ⟨arm, j⟩ hy
    refine writeVariantArm_ok htag (fun t ht => ?_) offset _ [x] addr j n
    obtain rfl : arm = some t := ht
    exact h t (List.fst_mem_of_mem_zipIdx hy)
  obtain ⟨blocks, hblocks, hfinish⟩ := Finishes.forM arms.zipIdx harm
  have hlen : blocks.length = arms.length := by
    rw [← hblocks.length_eq, List.length_zipIdx]
  have hresults : blocks.map (·.results.length) = List.replicate arms.length 0 := by
    rw [blockResults_of hblocks fun _ _ hb => by rw [hb.1, List.length_nil]]
    simp
  have hloop : (writeVariantArmsToMemory M.W offset addr (M.W.armTag ty)
      (arms.map fun o => o.map fun t => (t, writeToMemory M.W t)) : RGen M.W canon Unit) =
      arms.zipIdx.forM fun y => writeVariantArm M.W offset
        (offset + M.W.payloadOffset (M.W.armTag ty) arms) addr (M.W.armTag ty) y.2
        (y.1.map fun t => (t, writeToMemory M.W t)) := by
    rw [writeVariantArmsToMemory, armTypes_map]
    simp [List.zipIdx_map, List.forM_map]
  rw [← hloop] at hfinish
  have hemits := hfinish.emit (i := fun _ => i []) (hi []).operands.symm
    (hresults.trans (hi []).blocks.symm) (hi []).results
  rw [hwrite]
  refine ⟨_, _, hemits, ?_⟩
  intro ctx env v a hn hx haddr
  refine (computes_inst (f := fun _ => []) hn (lookup_one hx) ?_).mono fun _ _ _ _ _ => trivial
  beta_reduce
  rw [(hi []).sem, store_armStore ha]
  have hcount : (blocks.map (execBlock M.step · env)).length = arms.length := by
    rw [List.length_map, hlen]
  refine agree_lowerCase (f := fun _ => []) (s := fun i payload =>
    armStore M.toTarget (M.toTarget.tagBytes ty) (M.toTarget.payloadOffset ty arms) i payload
      (a + offset.eval M.p)) hcount fun j b payload hb hpayload => ?_
  rw [List.getElem?_map, Option.map_eq_some_iff] at hb
  obtain ⟨blk, hblk, rfl⟩ := hb
  have harmAt : arms.zipIdx[j]? = some (payload.map Prod.fst, j) := by simp [hpayload]
  exact (block_at hblocks hblk harmAt).2 ctx env payload a hn haddr rfl

/-! ## Every type -/

/-- A type lowered to one core value by `i`, which a store of 4 bytes writes. -/
theorem writes_handle {i : Instruction} (hops : i.operandsLen M.W = 1)
    (hblocks : i.blockResults = []) (hk : i.resultsLen M.W = 1)
    (hsem : ∀ ctx v, M.instSem i ctx [] [.val v] = Machine.lowerHandleOp (.val v))
    (addr : Nat) (offset : ArchitectureSize) :
    Writes M ra (lowerAndEmit M.W (emit M.W i) addr (.i32Store offset) : RGen M.W canon Unit)
      x addr n (fun v a => storeHandle v (a + offset.eval M.p)) := by
  have hlowers : Lowers M ra (emit M.W i : RGen M.W canon Unit) x n 1
      (fun v => (BitVec.toNat <$> require v.asHandle) >>= fun m => pure [⟨.i32, m⟩]) := by
    refine (lowers_handle hops hblocks hk hsem).congr fun v => ?_
    simp [lowerHandle]
  refine (Writes.lowerAndEmit isStore_i32 hlowers).congr fun v a => ?_
  simp [storeHandle]

theorem writes_prim (q : Prim) : WriteOk M canon ra (.prim q) := by
  intro x addr n offset
  rw [writeToMemory, lower]
  have hlowers : Lowers M ra (emit M.W (lowerPrim q) : RGen M.W canon Unit) x n 1
      (fun v => require (q.encode v) >>= fun m => pure [⟨q.flat, m⟩]) := by
    refine (lowers_prim q).congr fun v => ?_
    rw [lowerFlat]
  refine (Writes.lowerAndEmit (isStore_prim q) hlowers).congr fun v a => ?_
  rw [store]

theorem writes_flags (id : TypeId) (name : String) (names : List String) :
    WriteOk M canon ra (.flags id name names) := by
  intro x addr n offset
  rw [writeToMemory, lower]
  have hflags : Lowers M ra (emit M.W (.flagsLower names name id) : RGen M.W canon Unit) x n
      (M.W.flagsRepr names.length).count (lowerFlat M.toTarget (.flags id name names)) :=
    lowers_flags id name names
  obtain ⟨code, outs, n₁, hlen, hemits, hcomp⟩ := hflags
  have hstores : ∃ code, Emits ra (storeFlags M.W (M.W.flagsRepr names.length) addr offset :
      RGen M.W canon Unit) outs n₁ () [] code n₁ ∧ _ := storeFlags_repr _ hlen
  obtain ⟨code₂, hemits₂, hcomp₂⟩ := hstores
  refine ⟨_, _, hemits.bind hemits₂, ?_⟩
  intro ctx env v a hn hx haddr
  have hwords := hcomp ctx env v hn hx
  rw [lowerFlat] at hwords
  beta_reduce
  rw [store]
  refine Computes.append hwords.comap fun env₁ bs hpre₁ henv₁ hws => ?_
  rw [List.map_map] at hws
  exact hcomp₂ ctx env₁ _ a henv₁ (getElem?_mono hpre₁ haddr) hws

theorem writes_enum (hM : M.W.Lawful M.p) (id : TypeId) (name : String) (cases' : List String) :
    WriteOk M canon ra (.enum id name cases') := by
  intro x addr n offset
  rw [writeToMemory, lower]
  obtain ⟨i, hi, hstore⟩ := isStore_intrepr M canon offset (hM.tag_ne_u64 cases'.length)
  have hlowers : Lowers M ra (emit M.W (.enumLower cases' name id) : RGen M.W canon Unit) x n 1
      (fun v => (fun i => (disc i).bits) <$> require (v.asEnum cases'.length) >>= fun m =>
        pure [⟨.i32, m⟩]) := by
    refine (lowers_enum id name cases').congr fun v => ?_
    rw [lowerFlat]
    simp
    rfl
  have hwrites : Writes M ra (lowerAndEmit M.W (emit M.W (.enumLower cases' name id)) addr i :
      RGen M.W canon Unit) x addr n _ := Writes.lowerAndEmit hstore hlowers
  rw [lowerAndEmit, ← hi] at hwrites
  refine hwrites.congr fun v a => ?_
  rw [store]
  simp

/-- The code `lower` and `writeToMemory` record does what the canonical ABI says. -/
theorem lower_and_write {r : Realloc} (hM : M.W.Lawful M.p) {ty : Ty} (hs : ty.Supported) :
    ((M.W.pushFlat ty).length ≤ maxFlatParams → LowerOk M canon (some r) ty) ∧
      WriteOk M canon (some r) ty := by
  induction ty using Ty.ind with
  | prim q =>
    refine ⟨fun _ x n => ?_, writes_prim q⟩
    rw [lower, hM.flat_prim]
    exact lowers_prim q
  | string =>
    have hstring : ∀ x n, Lowers M (some r) (lower M.W .string : RGen M.W canon Unit) x n 2
        (lowerFlat M.toTarget .string) := fun x n => by
      rw [lower]
      exact Lowers.withRealloc lowers_string
    refine ⟨fun _ x n => by rw [hM.flat_string]; exact hstring x n, fun x addr n offset => ?_⟩
    rw [writeToMemory]
    have hmake : Lowers M (some r) (lower M.W .string : RGen M.W canon Unit) x n 2 fun v =>
        (require v.asString >>= lowerString M.toTarget) >>= fun y => pure (pairWords y) :=
      (hstring x n).congr fun v => by rw [lowerFlat, bind_assoc]
    refine (Writes.writeListToMemory hM.align_string hmake).congr fun v a => ?_
    rw [store, bind_assoc]
  | errorContext =>
    refine ⟨fun _ x n => ?_, fun x addr n offset => ?_⟩
    · rw [lower, hM.flat_errorContext]
      refine (lowers_handle rfl rfl rfl fun _ _ => rfl).congr fun v => ?_
      rw [lowerFlat]
    · rw [writeToMemory, lower]
      refine (writes_handle rfl rfl rfl (fun _ _ => rfl) addr offset).congr fun v a => ?_
      rw [store]
  | type id t ih =>
    obtain ⟨hlower, hwrite⟩ := ih hs.of_type
    refine ⟨fun hflat x n => ?_, fun x addr n offset => ?_⟩
    · rw [hM.flat_type] at hflat ⊢
      rw [lower]
      exact (hlower hflat x n).congr fun v => by rw [lowerFlat]
    · rw [writeToMemory]
      exact (hwrite x addr n offset).congr fun v a => by rw [store]
  | list id t ih =>
    have hlist : ∀ x n, Lowers M (some r) (lower M.W (.list id t) : RGen M.W canon Unit) x n 2
        (lowerFlat M.toTarget (.list id t)) := fun x n => lowers_list (ih hs.of_list).2
    refine ⟨fun _ x n => by rw [hM.flat_list]; exact hlist x n, fun x addr n offset => ?_⟩
    rw [writeToMemory]
    have hmake : Lowers M (some r) (lower M.W (.list id t) : RGen M.W canon Unit) x n 2
        fun v => (require v.asList >>= fun vs => lowerBuffer M.toTarget (M.size t) (M.align t)
          (vs.map fun v => store M.toTarget t v)) >>= fun y => pure (pairWords y) :=
      (hlist x n).congr fun v => by rw [lowerFlat, bind_assoc]
    refine (Writes.writeListToMemory (hM.align_list id t) hmake).congr fun v a => ?_
    rw [store, bind_assoc]
  | map id k t ihk iht =>
    have hmap : ∀ x n, Lowers M (some r) (lower M.W (.map id k t) : RGen M.W canon Unit) x n 2
        (lowerFlat M.toTarget (.map id k t)) := fun x n =>
      lowers_map hM (ihk hs.of_map.1).2 (iht hs.of_map.2).2
    refine ⟨fun _ x n => by rw [hM.flat_map]; exact hmap x n, fun x addr n offset => ?_⟩
    rw [writeToMemory]
    have hmake : Lowers M (some r) (lower M.W (.map id k t) : RGen M.W canon Unit) x n 2
        fun v => (require v.asMap >>= fun es => lowerBuffer M.toTarget (M.entrySize k t)
          (M.entryAlign k t) (es.map fun e => storeEntry (M.toTarget.valueOffset k t)
            (store M.toTarget k e.1) (store M.toTarget t e.2))) >>= fun y =>
              pure (pairWords y) :=
      (hmap x n).congr fun v => by rw [lowerFlat, bind_assoc]
    refine (Writes.writeListToMemory (hM.align_map id k t) hmake).congr fun v a => ?_
    rw [store, bind_assoc]
  | fixedLengthList id t k ih =>
    obtain ⟨hlower, hwrite⟩ := ih hs.of_fixedLengthList
    refine ⟨fun hflat => lowers_fixedLengthList hM fun hk => hlower ?_,
      writes_fixedLengthList hwrite⟩
    rw [hM.flat_fixedLengthList] at hflat
    exact Nat.le_trans (List.sublist_flatten_of_mem
      (List.mem_replicate.mpr ⟨Nat.ne_of_gt hk, rfl⟩)).length_le hflat
  | fields ty types hf ih =>
    refine ⟨fun hflat => lowers_fields hM hf fun t ht => (ih t ht (hs.of_fields hf t ht)).1 ?_,
      writes_fields hM hf fun t ht => (ih t ht (hs.of_fields hf t ht)).2⟩
    rw [hM.flat_fields ty types hf] at hflat
    exact Nat.le_trans (List.sublist_flatten_of_mem (List.mem_map_of_mem ht)).length_le hflat
  | flags id name names =>
    refine ⟨fun _ x n => ?_, writes_flags id name names⟩
    rw [lower, hM.flat_flags, List.length_replicate]
    exact lowers_flags id name names
  | arms ty arms ha ih =>
    obtain ⟨-, hsub⟩ := hs.of_arms ha
    refine ⟨fun hflat => lowers_arms hM ha hflat fun t ht => (ih t ht (hsub t ht)).1 ?_,
      writes_arms hM ha fun t ht => (ih t ht (hsub t ht)).2⟩
    obtain ⟨slots, hslots, hjoin⟩ := hM.flat_arms ty arms ha
    rw [hslots, List.length_cons] at hflat
    exact Nat.le_trans (hjoin t ht).1 (Nat.le_of_succ_le hflat)
  | enum id name cases' =>
    refine ⟨fun _ x n => ?_, writes_enum hM id name cases'⟩
    rw [lower, hM.flat_enum]
    exact lowers_enum id name cases'
  | handle id h name =>
    refine ⟨fun _ x n => ?_, fun x addr n offset => ?_⟩
    · rw [lower, hM.flat_handle]
      refine (lowers_handle rfl rfl rfl fun _ _ => rfl).congr fun v => ?_
      rw [lowerFlat]
    · rw [writeToMemory, lower]
      refine (writes_handle rfl rfl rfl (fun _ _ => rfl) addr offset).congr fun v a => ?_
      rw [store]
  | future id t =>
    refine ⟨fun _ x n => ?_, fun x addr n offset => ?_⟩
    · rw [lower, hM.flat_future]
      refine (lowers_handle rfl rfl rfl fun _ _ => rfl).congr fun v => ?_
      rw [lowerFlat]
    · rw [writeToMemory, lower]
      refine (writes_handle rfl rfl rfl (fun _ _ => rfl) addr offset).congr fun v a => ?_
      rw [store]
  | stream id t =>
    refine ⟨fun _ x n => ?_, fun x addr n offset => ?_⟩
    · rw [lower, hM.flat_stream]
      refine (lowers_handle rfl rfl rfl fun _ _ => rfl).congr fun v => ?_
      rw [lowerFlat]
    · rw [writeToMemory, lower]
      refine (writes_handle rfl rfl rfl (fun _ _ => rfl) addr offset).congr fun v a => ?_
      rw [store]
  | resource id => exact absurd hs Ty.not_supported_resource
  | unknown id => exact absurd hs Ty.not_supported_unknown

end

end WitBindgen
