import WitBindgen.Abi.Schemes
import WitBindgen.Machine.Steps

/-!
# The generator lifts what the canonical ABI lifts

For every supported type, the code `lift` records computes `liftFlat` and the
code `readFromMemory` records computes `load`, in any scope and whatever was
recorded before.
-/

namespace WitBindgen

open Heap Code Generator

section
variable {M : Machine} {canon : Ty → Bool}

/-! ## What emitters compute -/

/-- The code `g` records lifts the core values at `xs`, as `spec` does. -/
def Lifts (M : Machine) (ra : Option Realloc) (g : RGen M.W canon Unit) (xs : List Nat) (n : Nat)
    (spec : List Word → Exec Event Val) : Prop :=
  ∃ code y n', Emits ra g xs n () [y] code n' ∧
    ∀ ctx env ws, env.length = n → lookup env xs = some (ws.map .word) →
      Computes M.step code ctx env n' (spec ws) fun env' v => env'[y]? = some (.val v)

/-- The code `g` records reads a value from the address at `addr`, as `spec`
does. -/
def Reads (M : Machine) (ra : Option Realloc) (g : RGen M.W canon Unit) (addr n : Nat)
    (spec : Nat → Exec Event Val) : Prop :=
  ∃ code y n', Emits ra g [] n () [y] code n' ∧
    ∀ ctx env a, env.length = n → env[addr]? = some (.ptr a) →
      Computes M.step code ctx env n' (spec a) fun env' v => env'[y]? = some (.val v)

/-- Lifting every value of a type does what the canonical ABI says. -/
def LiftOk (M : Machine) (canon : Ty → Bool) (ra : Option Realloc) (t : Ty) : Prop :=
  ∀ xs n, xs.length = (M.W.pushFlat t).length →
    Lifts M ra (lift M.W t : RGen M.W canon Unit) xs n (liftFlat M.toTarget t)

/-- Reading every value of a type does what the canonical ABI says. -/
def ReadOk (M : Machine) (canon : Ty → Bool) (ra : Option Realloc) (t : Ty) : Prop :=
  ∀ addr n offset, Reads M ra (readFromMemory M.W t addr offset : RGen M.W canon Unit) addr n
    fun a => load M.toTarget t (a + offset.eval M.p)

variable {ra : Option Realloc} {xs : List Nat} {addr n k : Nat} {g : RGen M.W canon Unit}

theorem Lifts.congr {spec spec' : List Word → Exec Event Val} (h : Lifts M ra g xs n spec)
    (hspec : ∀ ws, ws.length = xs.length → spec ws = spec' ws) : Lifts M ra g xs n spec' := by
  obtain ⟨code, y, n', hemits, hcomp⟩ := h
  refine ⟨code, y, n', hemits, fun ctx env ws hn hws => ?_⟩
  rw [← hspec ws (by simpa using lookup_length hws)]
  exact hcomp ctx env ws hn hws

theorem Reads.congr {spec spec' : Nat → Exec Event Val} (h : Reads M ra g addr n spec)
    (hspec : ∀ a, spec a = spec' a) : Reads M ra g addr n spec' :=
  (funext hspec : spec = spec') ▸ h

/-- One instruction that yields a value. -/
theorem computes_val {i : Instruction} {ops : List Nat} {blocks : List CBlock} {ctx : Ctx}
    {env vs : List RVal} {n : Nat} {spec : Exec Event Val} (hn : env.length = n)
    (hops : lookup env ops = some vs)
    (h : Agree (fun rs v => rs = [.val v])
      (M.instSem i ctx (blocks.map (execBlock M.step · env)) vs) spec) :
    Computes M.step [Code.Stmt.mk (Op.inst i) ops blocks] ctx env (n + 1) spec fun env' v =>
      env'[n]? = some (.val v) := by
  refine (computes_inst (k := 1) (f := fun v => [.val v]) hn hops (h.mono ?_)).mono ?_
  · rintro rs v rfl
    exact ⟨rfl, rfl⟩
  · intro env' v _ _ hv
    exact (lookup_cons_inv hv).1

/-- An instruction that lifts core values. -/
theorem Lifts.inst {i : Instruction} {spec : List Word → Exec Event Val}
    (hops : xs.length = i.operandsLen M.W) (hblocks : i.blockResults = [])
    (hk : i.resultsLen M.W = 1)
    (h : ∀ ctx ws, ws.length = xs.length →
      Agree (fun rs v => rs = [.val v]) (M.instSem i ctx [] (ws.map .word)) (spec ws)) :
    Lifts M ra (emit M.W i : RGen M.W canon Unit) xs n spec := by
  refine ⟨_, n, _, Emits.emit hops hblocks hk, ?_⟩
  intro ctx env ws hn hws
  exact computes_val hn hws (h ctx ws (by simpa using lookup_length hws))

/-! ## Scalars, handles, flags and strings -/

theorem agree_val (x : Exec Event Val) :
    Agree (fun rs v => rs = [RVal.val v]) (x >>= fun v => pure [.val v]) x := by
  have hagree := (Agree.refl x).bind (f := fun v => (pure [RVal.val v] : Machine.Results))
    (g := pure) (S := fun rs v => rs = [.val v]) fun _ v h => Agree.pure (by rw [h])
  rwa [bind_pure] at hagree

theorem lifts_prim (q : Prim) (x : Nat) :
    Lifts M ra (emit M.W (liftPrim q) : RGen M.W canon Unit) [x] n
      (liftFlat M.toTarget (.prim q)) := by
  refine Lifts.inst (by cases q <;> rfl) (by cases q <;> rfl) (by cases q <;> rfl) ?_
  intro ctx ws hlen
  obtain ⟨w, rfl⟩ := List.length_eq_one_iff.mp hlen
  have hsem : M.instSem (liftPrim q) ctx [] [.word w] = Machine.liftScalar q (.word w) := by
    cases q <;> rfl
  rw [List.map_cons, List.map_nil, hsem, Machine.liftScalar, liftFlat, RVal.bits_word]
  exact Agree.require fun m _ => agree_val _

theorem lifts_handle {i : Instruction} (x : Nat) (hops : i.operandsLen M.W = 1)
    (hblocks : i.blockResults = []) (hk : i.resultsLen M.W = 1)
    (hsem : ∀ ctx w, M.instSem i ctx [] [.word w] = Machine.liftHandleOp (.word w)) :
    Lifts M ra (emit M.W i : RGen M.W canon Unit) [x] n liftHandle := by
  refine Lifts.inst hops.symm hblocks hk ?_
  intro ctx ws hlen
  obtain ⟨w, rfl⟩ := List.length_eq_one_iff.mp hlen
  rw [List.map_cons, List.map_nil, hsem, Machine.liftHandleOp, liftHandle, RVal.bits_word]
  exact Agree.require fun m _ => Agree.pure rfl

variable (M canon ra n) in
theorem lifts_flags (id : TypeId) (name : String) (names : List String)
    (hlen : xs.length = (M.W.flagsRepr names.length).count) :
    Lifts M ra (emit M.W (.flagsLift names name id) : RGen M.W canon Unit) xs n
      (liftFlat M.toTarget (.flags id name names)) := by
  refine Lifts.inst hlen rfl rfl ?_
  intro ctx ws _
  have hsem : M.instSem (.flagsLift names name id) ctx [] (ws.map .word) =
      (require ((ws.map RVal.word).mapM RVal.asWord) >>= fun ws =>
        require (i32sOf (M.W.flagsRepr names.length).count ws) >>= fun bits =>
          pure [.val (.flags (flagBits names.length bits))]) := rfl
  rw [hsem, mapM_asWord, require_some, pure_bind, liftFlat]
  exact Agree.require fun bits _ => Agree.pure rfl

theorem lifts_enum (id : TypeId) (name : String) (cases' : List String) (x : Nat) :
    Lifts M ra (emit M.W (.enumLift cases' name id) : RGen M.W canon Unit) [x] n
      (liftFlat M.toTarget (.enum id name cases')) := by
  refine Lifts.inst rfl rfl rfl ?_
  intro ctx ws hlen
  obtain ⟨w, rfl⟩ := List.length_eq_one_iff.mp hlen
  have hsem : M.instSem (.enumLift cases' name id) ctx [] [.word w] =
      (require (bitsOf .i32 [w]) >>= fun d =>
        require (enumVal cases'.length d) >>= fun v => pure [.val v]) := rfl
  rw [List.map_cons, List.map_nil, hsem, liftFlat]
  exact Agree.require fun d _ => agree_val _

theorem pairOperands_words (a b : Word) :
    Machine.pairOperands (.word a) (.word b) = pairOf [a, b] := by
  rw [Machine.pairOperands, RVal.bits_word, RVal.bits_word, bitsOf, bitsOf, pairOf]
  by_cases ha : a.ty = .pointer <;> by_cases hb : b.ty = .length <;> simp [ha, hb]

/-- Instructions that take a pointer and a length. -/
theorem Lifts.pair {i : Instruction} {ptr len : Nat} {spec : Nat × Nat → Exec Event Val}
    (hops : i.operandsLen M.W = 2) (hblocks : i.blockResults = []) (hk : i.resultsLen M.W = 1)
    (hsem : ∀ ctx a b, M.instSem i ctx [] [a, b] =
      (require (Machine.pairOperands a b) >>= fun y => spec y >>= fun v => pure [.val v])) :
    Lifts M ra (emit M.W i : RGen M.W canon Unit) [ptr, len] n
      (fun ws => require (pairOf ws) >>= spec) := by
  refine Lifts.inst (by rw [hops]; rfl) hblocks hk ?_
  intro ctx ws hlen
  obtain ⟨a, b, rfl⟩ := List.length_eq_two.mp hlen
  rw [List.map_cons, List.map_cons, List.map_nil, hsem, pairOperands_words]
  exact Agree.require fun y _ => agree_val _

/-! ## Loads -/

/-- An instruction that loads `size` bytes as a core value of type `ty`. -/
structure IsLoad (M : Machine) (i : Instruction) (ty : WasmType) (size : Nat)
    (extend : Nat → Nat) (offset : ArchitectureSize) : Prop where
  operands : i.operandsLen M.W = 1
  results : i.resultsLen M.W = 1
  blocks : i.blockResults = []
  sem : ∀ ctx a, M.instSem i ctx [] [a] = M.loadWord ty size extend offset a

section
variable {offset : ArchitectureSize} {ty : WasmType} {size : Nat} {extend : Nat → Nat}
  {i : Instruction}

theorem isLoad_i32 : IsLoad M (.i32Load offset) .i32 4 id offset := ⟨rfl, rfl, rfl, fun _ _ => rfl⟩

theorem isLoad_prim (q : Prim) : IsLoad M (loadPrim offset q) q.flat q.bytes q.extend offset := by
  cases q <;> exact ⟨rfl, rfl, rfl, fun _ _ => rfl⟩

variable (M canon offset) in
/-- The load of a discriminant. -/
theorem isLoad_intrepr {repr : IntRepr} (h : repr ≠ .u64) : ∃ i,
    (loadIntrepr M.W offset repr : RGen M.W canon Unit) = emit M.W i ∧
      IsLoad M i .i32 repr.bytes id offset := by
  cases repr with
  | u64 => exact absurd rfl h
  | u8 => exact ⟨.i32Load8U offset, rfl, rfl, rfl, rfl, fun _ _ => rfl⟩
  | u16 => exact ⟨.i32Load16U offset, rfl, rfl, rfl, rfl, fun _ _ => rfl⟩
  | u32 => exact ⟨.i32Load offset, rfl, rfl, rfl, rfl, fun _ _ => rfl⟩

theorem IsLoad.emits (h : IsLoad M i ty size extend offset) (addr : Nat) :
    Emits ra (emit M.W i : RGen M.W canon Unit) [addr] n () [n] [Code.Stmt.mk (Op.inst i) [addr] []] (n + 1) :=
  Emits.emit (by rw [h.operands]; rfl) h.blocks h.results

theorem IsLoad.computes (h : IsLoad M i ty size extend offset) (ctx : Ctx) {env : List RVal}
    {a : Nat} (hn : env.length = n) (haddr : env[addr]? = some (.ptr a)) :
    Computes M.step [Code.Stmt.mk (Op.inst i) [addr] []] ctx env (n + 1)
      (loadNat (a + offset.eval M.p) size) fun env' m =>
        env'[n]? = some (.word ⟨ty, extend m⟩) := by
  refine (computes_inst (k := 1) (f := fun m => [.word ⟨ty, extend m⟩]) hn (lookup_one haddr)
    ?_).mono fun env' m _ _ hm => (lookup_cons_inv hm).1
  rw [List.map_nil, h.sem, Machine.loadWord, RVal.bits_ptr, require_some, pure_bind]
  have hagree := (Agree.refl (loadNat (ε := Event) (a + offset.eval M.p) size)).bind
    (f := fun m => (pure [RVal.word ⟨ty, extend m⟩] : Machine.Results)) (g := pure)
    (S := fun rs m => rs.length = 1 ∧ rs = [.word ⟨ty, extend m⟩])
    fun _ m h => Agree.pure (by subst h; exact ⟨rfl, rfl⟩)
  rwa [bind_pure] at hagree

/-- A core value that an instruction loads, lifted. -/
theorem Reads.emitAndLift {spec : List Word → Exec Event Val}
    (hi : IsLoad M i ty size extend offset) (h : ∀ x n, Lifts M ra g [x] n spec) :
    Reads M ra (emitAndLift M.W g addr i) addr n
      (fun a => loadNat (a + offset.eval M.p) size >>= fun m => spec [⟨ty, extend m⟩]) := by
  obtain ⟨code, y, n', hemits, hcomp⟩ := h n (n + 1)
  refine ⟨_, _, _, (Emits.push addr).then ((hi.emits addr).bind hemits), ?_⟩
  intro ctx env a hn haddr
  exact Computes.append (hi.computes ctx hn haddr) fun env₁ m _ hlen₁ hm =>
    hcomp ctx env₁ _ hlen₁ (lookup_one hm)

/-- A pointer and a length that are loaded, lifted. -/
theorem Reads.readListFromMemory {ty : Ty} {spec : List Word → Exec Event Val}
    (halign : M.W.align ty = .pointer) (h : ∀ ptr len n, Lifts M ra g [ptr, len] n spec) :
    Reads M ra (readListFromMemory M.W ty g addr offset) addr n
      (fun a => loadPair M.toTarget (a + offset.eval M.p) >>= fun y => spec (pairWords y)) := by
  have hpointer : IsLoad M (.pointerLoad offset) .pointer M.p id offset :=
    ⟨rfl, rfl, rfl, fun _ _ => rfl⟩
  have hlength : IsLoad M (.lengthLoad (offset + (M.W.align ty).toSize)) .length M.p id
      (offset + (M.W.align ty).toSize) := ⟨rfl, rfl, rfl, fun _ _ => rfl⟩
  obtain ⟨code, y, n', hemits, hcomp⟩ := h n (n + 1) (n + 2)
  have hoffset : ∀ a, a + (offset + (M.W.align ty).toSize).eval M.p =
      a + offset.eval M.p + M.p := by
    intro a
    rw [halign, ArchitectureSize.eval_add, ← Nat.add_assoc]
    simp [Alignment.toSize, ArchitectureSize.eval]
  refine ⟨_, _, _, (Emits.push addr).then ((hpointer.emits addr).bind ((Emits.push addr).then
    (((hlength.emits addr).frame [n]).bind hemits))), ?_⟩
  intro ctx env a hn haddr
  have hspec : (loadPair M.toTarget (a + offset.eval M.p) >>= fun y => spec (pairWords y)) =
      (loadNat (a + offset.eval M.p) M.p >>= fun ptr =>
        loadNat (a + offset.eval M.p + M.p) M.p >>= fun len => spec (pairWords (ptr, len))) := by
    simp [loadPair]
  beta_reduce
  rw [hspec]
  refine Computes.append (hpointer.computes ctx hn haddr) fun env₁ ptr hpre₁ hlen₁ hptr => ?_
  have hlen := hlength.computes ctx hlen₁ (getElem?_mono hpre₁ haddr)
  rw [hoffset] at hlen
  exact Computes.append hlen fun env₂ len hpre₂ hlen₂ hl =>
    hcomp ctx env₂ _ hlen₂ (lookup_two (getElem?_mono hpre₂ hptr) hl)

/-- The words of a set of flags, loaded in order. -/
theorem loadFlags_words (count j n : Nat) : ∃ code outs n', outs.length = count ∧
    Emits ra ((List.range' j count).forM fun i => do
      (push addr : RGen M.W canon Unit)
      emit M.W (.i32Load (offset.addBytes (i * 4)))) [] n ⟨⟩ outs code n' ∧
    ∀ ctx env a, env.length = n → env[addr]? = some (.ptr a) →
      Computes M.step code ctx env n' (loadWords 4 count (a + offset.eval M.p + j * 4))
        fun env' ws => lookup env' outs = some (ws.map fun w => .word ⟨.i32, w⟩) := by
  induction count generalizing j n with
  | zero =>
    refine ⟨[], [], n, rfl, Emits.pure, ?_⟩
    rintro ctx env a rfl _
    exact Computes.nil rfl
  | succ count ih =>
    obtain ⟨code, outs, n', hlen, hemits, hcomp⟩ := ih (j + 1) (n + 1)
    have hload : IsLoad M (.i32Load (offset.addBytes (j * 4))) .i32 4 id
        (offset.addBytes (j * 4)) := isLoad_i32
    refine ⟨_, [n] ++ outs, n', by simp [hlen], ((Emits.push addr).then
      (hload.emits addr)).bind (hemits.above [n]), ?_⟩
    intro ctx env a hn haddr
    have haddress : a + (offset.addBytes (j * 4)).eval M.p = a + offset.eval M.p + j * 4 := by
      rw [ArchitectureSize.eval_addBytes, Nat.add_assoc]
    have hnext : a + offset.eval M.p + (j + 1) * 4 = a + offset.eval M.p + j * 4 + 4 := by
      omega
    have hfirst := hload.computes ctx hn haddr
    rw [haddress] at hfirst
    rw [loadWords]
    refine Computes.append hfirst fun env₁ w hpre₁ hlen₁ hw => ?_
    have hrest := hcomp ctx env₁ a hlen₁ (getElem?_mono hpre₁ haddr)
    rw [hnext] at hrest
    rw [← map_eq_pure_bind]
    exact hrest.map fun env₂ ws hpre₂ _ hws => lookup_cons (getElem?_mono hpre₂ hw) hws

variable (M canon ra addr offset) in
theorem loadFlags_repr (repr : FlagsRepr) (n : Nat) : ∃ code outs n', outs.length = repr.count ∧
    Emits ra (loadFlags M.W repr addr offset : RGen M.W canon Unit) [] n () outs code n' ∧
    ∀ ctx env a, env.length = n → env[addr]? = some (.ptr a) →
      Computes M.step code ctx env n' (loadWords repr.wordBytes repr.count (a + offset.eval M.p))
        fun env' ws => lookup env' outs = some (ws.map fun w => .word ⟨.i32, w⟩) := by
  have hsmall : ∀ (i : Instruction) (k : Nat), IsLoad M i .i32 k id offset →
      ∃ code outs n', outs.length = 1 ∧
      Emits ra (push addr >>= fun _ => (emit M.W i : RGen M.W canon Unit)) [] n () outs code n' ∧
      ∀ ctx env a, env.length = n → env[addr]? = some (.ptr a) →
        Computes M.step code ctx env n' (loadWords k 1 (a + offset.eval M.p))
          fun env' ws => lookup env' outs = some (ws.map fun w => .word ⟨.i32, w⟩) := by
    intro i k hi
    refine ⟨_, [n], _, rfl, (Emits.push addr).then (hi.emits addr), ?_⟩
    intro ctx env a hn haddr
    have hspec : loadWords k 1 (a + offset.eval M.p) =
        (fun w => [w]) <$> loadNat (a + offset.eval M.p) k := by simp [loadWords]
    rw [hspec]
    exact (hi.computes ctx hn haddr).map fun env' w _ _ hw => lookup_one hw
  cases repr with
  | u8 => exact hsmall (.i32Load8U offset) 1 ⟨rfl, rfl, rfl, fun _ _ => rfl⟩
  | u16 => exact hsmall (.i32Load16U offset) 2 ⟨rfl, rfl, rfl, fun _ _ => rfl⟩
  | u32 count =>
    rw [loadFlags, List.range_eq_range']
    obtain ⟨code, outs, n', hlen, hemits, hcomp⟩ := loadFlags_words count 0 n
    refine ⟨code, outs, n', hlen, hemits, ?_⟩
    intro ctx env a hn haddr
    simpa [FlagsRepr.wordBytes, FlagsRepr.count] using hcomp ctx env a hn haddr

end

/-! ## Blocks over elements -/

/-- Read a value from the base pointer. -/
def readIter {B : Bindgen} (W : WitParser) (t : Ty) (offset : ArchitectureSize) : Gen B Unit := do
  emit W .iterBasePointer
  let addr ← pop
  readFromMemory W t addr offset

theorem iterBasePointer_emits (n : Nat) :
    Emits ra (emit M.W .iterBasePointer : RGen M.W canon Unit) [] n () [n]
      [Code.Stmt.mk (Op.inst .iterBasePointer) [] []] (n + 1) := Emits.emit rfl rfl rfl

theorem readIter_ok {t : Ty} (ht : ReadOk M canon ra t) (n : Nat) (offset : ArchitectureSize) :
    ∃ code y n', Emits ra (readIter M.W t offset : RGen M.W canon Unit) [] n () [y] code n' ∧
      ∀ ctx env a, env.length = n → ctx.base = some a →
        Computes M.step code ctx env n' (load M.toTarget t (a + offset.eval M.p))
          fun env' v => env'[y]? = some (.val v) := by
  obtain ⟨code, y, n', hemits, hcomp⟩ := ht n (n + 1) offset
  refine ⟨_, y, n', (iterBasePointer_emits n).bind ((Emits.pop [] n).then hemits), ?_⟩
  intro ctx env a hn ha
  have hspec : load M.toTarget t (a + offset.eval M.p) =
      (pure () >>= fun _ => load M.toTarget t (a + offset.eval M.p)) := rfl
  rw [hspec]
  exact Computes.append (computes_value hn (instSem_iterBasePointer ha))
    fun env₁ _ _ hlen₁ hptr => hcomp ctx env₁ a hlen₁ hptr

/-- A block that hands one value back. -/
theorem runVal_agree {code : List CStmt} {y : Nat} {ctx : Ctx} {env : List RVal} {n' : Nat}
    {spec : Exec Event Val}
    (h : Computes M.step code ctx env n' spec fun env' v => env'[y]? = some (.val v)) :
    Agree Eq (Machine.runVal (execBlock M.step (.mk code [y]) env) ctx) spec := by
  have hblock := execBlock_agree (f := fun v => [.val v])
    (h.mono fun env' v _ _ hv => lookup_one hv)
  rw [Machine.runVal, ← bind_pure spec]
  refine hblock.bind fun rs v hrs => ?_
  obtain ⟨-, rfl⟩ := hrs
  exact Agree.pure rfl

theorem agree_loadBuffer {α : Type} {size : Nat} {f g : Nat → Exec Event α}
    (h : ∀ a, Agree Eq (f a) (g a)) (y : Nat × Nat) :
    Agree Eq (loadBuffer size f y) (loadBuffer size g y) := by
  refine (Agree.mapM (List.forall₂_same.mpr fun a _ => h a)).mono fun xs ys hxs => ?_
  exact List.forall₂_eq_eq_eq ▸ hxs

theorem lifts_list (id : TypeId) {t : Ty} (ht : ReadOk M canon ra t) (ptr len n : Nat) :
    Lifts M ra (lift M.W (.list id t) : RGen M.W canon Unit) [ptr, len] n
      (fun ws => require (pairOf ws) >>= fun y =>
        loadBuffer (M.size t) (fun a => load M.toTarget t a) y >>= fun vs => pure (.list vs)) := by
  rw [lift, isListCanonical, pure_bind]
  split
  · refine Lifts.pair rfl rfl rfl fun ctx a b => ?_
    simp only [bind_assoc, pure_bind]
    rfl
  · obtain ⟨code, y, n', hemits, hcomp⟩ := readIter_ok ht n default
    have hblock : Finishes ra (block 1 (readIter M.W t default) : RGen M.W canon Unit) [] n ()
        [] [.mk code [y]] := Finishes.block hemits rfl
    refine ⟨_, n, _, (hblock.frame [ptr, len]).emit rfl rfl rfl, ?_⟩
    intro ctx env ws hn hws
    refine computes_val hn hws ?_
    obtain ⟨a, b, rfl⟩ := List.length_eq_two.mp (by simpa using lookup_length hws)
    have hsem : ∀ run, M.instSem (.listLift t id) ctx [run] [.word a, .word b] =
        (require (Machine.pairOperands (.word a) (.word b)) >>= fun y =>
          loadBuffer (M.size t) (fun a => Machine.runVal run { ctx with base := some a }) y >>=
            fun vs => pure [.val (.list vs)]) := fun run => rfl
    show Agree _ (M.instSem _ ctx [execBlock M.step (.mk code [y]) env] [.word a, .word b]) _
    rw [hsem, pairOperands_words]
    refine Agree.require fun pl _ => (agree_loadBuffer (fun a => ?_) pl).bind ?_
    · have hrun := hcomp { ctx with base := some a } env a hn rfl
      rw [ArchitectureSize.eval_default, Nat.add_zero] at hrun
      exact runVal_agree hrun
    · rintro vs _ rfl
      exact Agree.pure rfl

theorem lifts_map (id : TypeId) {k t : Ty} (hM : M.W.Lawful M.p) (hk : ReadOk M canon ra k)
    (ht : ReadOk M canon ra t) (ptr len n : Nat) :
    Lifts M ra (lift M.W (.map id k t) : RGen M.W canon Unit) [ptr, len] n
      (fun ws => require (pairOf ws) >>= fun y =>
        loadBuffer (M.entrySize k t) (loadEntry (M.toTarget.valueOffset k t)
          (fun a => load M.toTarget k a) (fun a => load M.toTarget t a)) y >>= fun es =>
            pure (.map es)) := by
  rw [lift]
  obtain ⟨offset, hoffset, hvalueOffset⟩ := valueOffset_ok (T := M.toTarget) hM k t
  rw [valueOffset, hoffset, orPanic, pure_bind]
  obtain ⟨keyCode, x, n₁, hkey, hkeyComp⟩ := hk n (n + 1) default
  obtain ⟨code, y, n', hvalue, hvalueComp⟩ := ht n n₁ offset
  have hbody : Emits ra (do
      emit M.W .iterBasePointer
      let entryAddr ← pop
      readFromMemory M.W k entryAddr default
      readFromMemory M.W t entryAddr offset : RGen M.W canon Unit) [] n () ([] ++ [x, y])
      ([Code.Stmt.mk (Op.inst .iterBasePointer) [] []] ++ (keyCode ++ code)) n' :=
    (iterBasePointer_emits n).bind ((Emits.pop [] n).then (hkey.bind (hvalue.above [x])))
  have hblock := Finishes.block hbody rfl
  refine ⟨_, n, _, (hblock.frame [ptr, len]).emit rfl rfl rfl, ?_⟩
  intro ctx env ws hn hws
  refine computes_val hn hws ?_
  obtain ⟨a, b, rfl⟩ := List.length_eq_two.mp (by simpa using lookup_length hws)
  have hsem : ∀ run, M.instSem (.mapLift k t id) ctx [run] [.word a, .word b] =
      (require (Machine.pairOperands (.word a) (.word b)) >>= fun y =>
        loadBuffer (M.entrySize k t) (fun a => Machine.runEntry run { ctx with base := some a }) y
          >>= fun es => pure [.val (.map es)]) := fun run => rfl
  show Agree _ (M.instSem _ ctx [execBlock M.step (.mk _ [x, y]) env] [.word a, .word b]) _
  rw [hsem, pairOperands_words]
  refine Agree.require fun pl _ => (agree_loadBuffer (fun a => ?_) pl).bind ?_
  · have hentry : Computes M.step ([Code.Stmt.mk (Op.inst .iterBasePointer) [] []] ++ (keyCode ++ code))
        { ctx with base := some a } env n' (loadEntry (M.toTarget.valueOffset k t)
          (fun a => load M.toTarget k a) (fun a => load M.toTarget t a) a)
        fun env' e => lookup env' [x, y] = some [.val e.1, .val e.2] := by
      have hspec : loadEntry (M.toTarget.valueOffset k t) (fun a => load M.toTarget k a)
          (fun a => load M.toTarget t a) a = (pure () >>= fun _ =>
            load M.toTarget k (a + (default : ArchitectureSize).eval M.p) >>= fun u =>
              (fun v => (u, v)) <$> load M.toTarget t (a + offset.eval M.p)) := by
        simp [loadEntry, hvalueOffset]
      rw [hspec]
      refine Computes.append (computes_value hn (instSem_iterBasePointer rfl))
        fun env₁ _ _ hlen₁ hptr => ?_
      refine Computes.append (hkeyComp _ env₁ a hlen₁ hptr) fun env₂ u hpre₂ hlen₂ hu => ?_
      exact (hvalueComp _ env₂ a hlen₂ (getElem?_mono hpre₂ hptr)).map
        fun env₃ v hpre₃ _ hv => lookup_two (getElem?_mono hpre₃ hu) hv
    rw [Machine.runEntry, ← bind_pure (loadEntry _ _ _ a)]
    refine (execBlock_agree (f := fun e => [RVal.val e.1, RVal.val e.2]) hentry).bind fun rs e hrs => ?_
    obtain ⟨-, rfl⟩ := hrs
    exact Agree.pure rfl
  · rintro es _ rfl
    exact Agree.pure rfl

/-- The elements of a fixed-length list, read in place. -/
theorem reads_fixedLengthList {id : TypeId} {t : Ty} {k : Nat} (ht : ReadOk M canon ra t) :
    ReadOk M canon ra (.fixedLengthList id t k) := by
  intro addr n offset
  rw [readFromMemory]
  obtain ⟨code, y, n', hemits, hcomp⟩ := readIter_ok ht n offset
  have hblock : Finishes ra (block 1 (readIter M.W t offset) : RGen M.W canon Unit) [] n ()
      [] [.mk code [y]] := Finishes.block hemits rfl
  have hpush := hblock.bind (f := fun _ => push addr) (Finishes.push addr)
  have hemit := hpush.emit (i := fun _ => .fixedLengthListLiftFromMemory t k id) (k := 1) rfl rfl
    rfl
  rw [bind_assoc] at hemit
  refine ⟨_, n, _, hemit, ?_⟩
  intro ctx env a hn haddr
  refine computes_val hn (lookup_one haddr) ?_
  have hsem : ∀ run, M.instSem (.fixedLengthListLiftFromMemory t k id) ctx [run] [.ptr a] =
      ((slots a (M.size t) k).mapM (fun a => Machine.runVal run { ctx with base := some a }) >>=
        fun vs => pure [.val (.list vs)]) := fun run => rfl
  have hslots : slots (a + offset.eval M.p) (M.size t) k =
      (slots a (M.size t) k).map (· + offset.eval M.p) := by
    simp [slots, Function.comp_def, Nat.add_right_comm]
  show Agree _ (M.instSem _ ctx [execBlock M.step (.mk code [y]) env] [.ptr a])
    (load M.toTarget (.fixedLengthList id t k) (a + offset.eval M.p))
  rw [hsem, load, hslots, List.mapM_map]
  refine ((Agree.mapM (List.forall₂_same.mpr fun b _ => ?_)).mono fun vs us h =>
    (List.forall₂_eq_eq_eq ▸ h : vs = us)).bind ?_
  · exact runVal_agree (hcomp { ctx with base := some b } env b hn rfl)
  · rintro vs _ rfl
    exact Agree.pure rfl

/-! ## Members -/

/-- `i` puts `k` members together as `build` does. -/
structure IsCompose (M : Machine) (i : Instruction) (k : Nat) (build : List Val → Val) : Prop where
  operands : i.operandsLen M.W = k
  results : i.resultsLen M.W = 1
  blocks : i.blockResults = []
  sem : ∀ ctx (vs : List Val), vs.length = k →
    M.instSem i ctx [] (vs.map .val) = pure [.val (build vs)]

theorem compose_vals {k : Nat} {vs : List Val} (h : vs.length = k) :
    Machine.compose k (vs.map .val) = pure [.val (.record vs)] := by
  rw [Machine.compose, mapM_asVal, require_some, pure_bind, if_pos h]

/-- Members lifted or read by `g`, put together. -/
theorem IsCompose.computes {i : Instruction} {k : Nat} {build : List Val → Val}
    (hi : IsCompose M i k build) {code : List CStmt} {ctx : Ctx} {env : List RVal} {ys : List Nat}
    {n' : Nat} {spec : Exec Event (List Val)} (hlen : ys.length = k)
    (h : Computes M.step code ctx env n' spec fun env' vs => lookup env' ys = some (vs.map .val)) :
    Computes M.step (code ++ [Code.Stmt.mk (Op.inst i) ys []]) ctx env (n' + 1)
      (spec >>= fun vs => pure (build vs)) fun env' v => env'[n']? = some (.val v) := by
  refine Computes.append h fun env₁ vs _ hlen₁ hvs => computes_val hlen₁ hvs ?_
  have hvlen : vs.length = k := by
    rw [← hlen, ← lookup_length hvs, List.length_map]
  rw [List.map_nil, hi.sem ctx vs hvlen]
  exact Agree.pure rfl

/-- The loop of `flatForEachRecordType`. -/
theorem liftsEach {types : List Ty}
    (h : ∀ t ∈ types, LiftOk M canon ra t ∧ (M.W.pushFlat t).length ≤ maxFlatParams)
    {args : List Nat} (hlen : args.length = (types.map M.W.pushFlat).flatten.length) (n : Nat) :
    ∃ code ys n', ys.length = types.length ∧
      Emits ra (forEachRecordType M.W (types.map fun t => (t, lift M.W t)) args :
        RGen M.W canon Unit) [] n () ys code n' ∧
      ∀ ctx env ws, env.length = n → lookup env args = some (ws.map .word) →
        Computes M.step code ctx env n'
          ((types.zip (chunks (types.map fun t => (M.W.pushFlat t).length) ws)).mapM fun y =>
            liftFlat M.toTarget y.1 y.2) fun env' vs => lookup env' ys = some (vs.map .val) := by
  induction types generalizing args n with
  | nil =>
    refine ⟨[], [], n, rfl, Emits.pure, ?_⟩
    rintro ctx env ws rfl _
    exact Computes.nil (lookup_nil env)
  | cons t types ih =>
    obtain ⟨hok, hmax⟩ := h t List.mem_cons_self
    rw [List.map_cons, List.flatten_cons, List.length_append] at hlen
    have hle : (M.W.pushFlat t).length ≤ args.length := by omega
    obtain ⟨code₁, y, n₁, hemits₁, hcomp₁⟩ := hok (args.take (M.W.pushFlat t).length) n
      (by rw [List.length_take, Nat.min_eq_left hle])
    have hrestLen : (args.drop (M.W.pushFlat t).length).length =
        (types.map M.W.pushFlat).flatten.length := by rw [List.length_drop]; omega
    obtain ⟨code₂, ys, n₂, hlen₂, hemits₂, hcomp₂⟩ :=
      ih (fun t' ht' => h t' (List.mem_cons_of_mem _ ht')) hrestLen n₁
    refine ⟨code₁ ++ code₂, [y] ++ ys, n₂, by simp [hlen₂], ?_, ?_⟩
    · rw [List.map_cons, forEachRecordType]
      exact (Emits.flatTypes hmax).then ((Emits.slice hle).then ((Emits.extend _).then
        (hemits₁.bind (hemits₂.above [y]))))
    · intro ctx env ws hn hws
      rw [List.map_cons, chunks, List.zip_cons_cons, List.mapM_cons]
      have hfirst := lookup_take hws (M.W.pushFlat t).length
      rw [← List.map_take] at hfirst
      refine Computes.append (hcomp₁ ctx env _ hn hfirst) fun env₁ v hpre₁ henv₁ hv => ?_
      have hrest := lookup_drop (lookup_mono hpre₁ hws) (M.W.pushFlat t).length
      rw [← List.map_drop] at hrest
      rw [← map_eq_pure_bind]
      exact (hcomp₂ ctx env₁ _ henv₁ hrest).map fun env₂ vs hpre₂ _ hvs =>
        lookup_cons (getElem?_mono hpre₂ hv) hvs

/-- The loop of `readFieldsFromMemory`. -/
theorem readsEach {items : List (ArchitectureSize × Ty)}
    (h : ∀ y ∈ items, ReadOk M canon ra y.2) (addr n : Nat) (offset : ArchitectureSize) :
    ∃ code ys n', ys.length = items.length ∧
      Emits ra ((items.map fun y => (y.1, y.2, readFromMemory M.W y.2)).forM fun y =>
        (y.2.2 addr (offset + y.1) : RGen M.W canon Unit)) [] n ⟨⟩ ys code n' ∧
      ∀ ctx env a, env.length = n → env[addr]? = some (.ptr a) →
        Computes M.step code ctx env n' (items.mapM fun y =>
          load M.toTarget y.2 (a + offset.eval M.p + y.1.eval M.p)) fun env' vs =>
            lookup env' ys = some (vs.map .val) := by
  induction items generalizing n with
  | nil =>
    refine ⟨[], [], n, rfl, Emits.pure, ?_⟩
    rintro ctx env a rfl _
    exact Computes.nil (lookup_nil env)
  | cons item items ih =>
    obtain ⟨code₁, y, n₁, hemits₁, hcomp₁⟩ := h item List.mem_cons_self addr n (offset + item.1)
    obtain ⟨code₂, ys, n₂, hlen₂, hemits₂, hcomp₂⟩ :=
      ih (fun y' hy' => h y' (List.mem_cons_of_mem _ hy')) n₁
    refine ⟨code₁ ++ code₂, [y] ++ ys, n₂, by simp [hlen₂], hemits₁.bind (hemits₂.above [y]), ?_⟩
    intro ctx env a hn haddr
    have hfirst := hcomp₁ ctx env a hn haddr
    simp only [ArchitectureSize.eval_add, ← Nat.add_assoc] at hfirst
    rw [List.mapM_cons]
    refine Computes.append hfirst fun env₁ v hpre₁ henv₁ hv => ?_
    rw [← map_eq_pure_bind]
    exact (hcomp₂ ctx env₁ a henv₁ (getElem?_mono hpre₁ haddr)).map fun env₂ vs hpre₂ _ hvs =>
      lookup_cons (getElem?_mono hpre₂ hv) hvs

theorem FieldsLift.compose {ty : Ty} {types : List Ty} {i : Instruction}
    (h : FieldsLift ty types i) : IsCompose M i types.length .record := by
  cases h with
  | record => exact ⟨(List.length_map _).symm, rfl, rfl,
      fun _ _ h => compose_vals (h.trans (List.length_map _))⟩
  | tuple => exact ⟨rfl, rfl, rfl, fun _ _ h => compose_vals h⟩

theorem lifts_fields {ty : Ty} {types : List Ty} (hM : M.W.Lawful M.p)
    (hf : ty.fieldTypes = some types) (hflat : (M.W.pushFlat ty).length ≤ maxFlatParams)
    (h : ∀ t ∈ types, LiftOk M canon ra t ∧ (M.W.pushFlat t).length ≤ maxFlatParams) :
    LiftOk M canon ra ty := by
  intro xs n hlen
  obtain ⟨i, hfields, hlift, -⟩ := lift_fields_eq (W := M.W) (B := recorder M.W canon) hf
  have hi := hfields.compose (M := M)
  have hargs : xs.length = (types.map M.W.pushFlat).flatten.length := by
    rw [hlen, hM.flat_fields ty types hf]
  obtain ⟨code, ys, n', hys, hemits, hcomp⟩ := liftsEach h hargs n
  have hinst : Emits ra (emit M.W i : RGen M.W canon Unit) ys n' () [n']
      [Code.Stmt.mk (Op.inst i) ys []] (n' + 1) := Emits.emit (by rw [hys, hi.operands]) hi.blocks hi.results
  have hmembers : Emits ra (flatForEachRecordType M.W ty (types.map fun t => (t, lift M.W t)) :
      RGen M.W canon Unit) xs n () ys code n' :=
    (Emits.flatTypes hflat).then ((Emits.drain hlen).then hemits)
  rw [hlift]
  refine ⟨_, n', _, hmembers.bind hinst, ?_⟩
  intro ctx env ws hn hws
  have hspec : liftFlat M.toTarget ty ws =
      ((types.zip (chunks (types.map fun t => (M.W.pushFlat t).length) ws)).mapM fun y =>
        liftFlat M.toTarget y.1 y.2) >>= fun vs => pure (.record vs) := by
    rw [liftFlat_fields hf, liftFields]
    simp [List.zip_map_left, List.mapM_map, Function.comp_def]
  rw [hspec]
  exact hi.computes hys (hcomp ctx env ws hn hws)

/-- The fields in memory order, each at its offset. -/
theorem forEachField_eq {T : Target} (hT : T.W.Lawful T.p) {B : Bindgen} (types : List Ty)
    (g : Ty → B.Operand → ArchitectureSize → Gen B Unit) (addr : B.Operand)
    (offset : ArchitectureSize) :
    forEachField T.W (types.map fun t => (t, g t)) addr offset =
      ((T.W.fieldOffsets types).map fun y => (y.1, y.2, g y.2)).forM fun y =>
        y.2.2 addr (offset + y.1) := by
  have hids : (types.map fun t => (t, g t)).map (·.1) = types := by
    rw [List.map_map]; exact List.map_id _
  unfold forEachField
  rw [hids, fieldOffsets_map hT types, List.zip_map']

theorem readsFields {types : List Ty} (hM : M.W.Lawful M.p)
    (h : ∀ t ∈ types, ReadOk M canon ra t) (addr n : Nat) (offset : ArchitectureSize) :
    ∃ code ys n', ys.length = types.length ∧
      Emits ra (forEachField M.W (types.map fun t => (t, readFromMemory M.W t)) addr offset :
        RGen M.W canon Unit) [] n () ys code n' ∧
      ∀ ctx env a, env.length = n → env[addr]? = some (.ptr a) →
        Computes M.step code ctx env n' ((M.W.fieldOffsets types).mapM fun y =>
          load M.toTarget y.2 (a + offset.eval M.p + y.1.eval M.p)) fun env' vs =>
            lookup env' ys = some (vs.map .val) := by
  have hoffsets : (M.W.fieldOffsets types).length = types.length := by
    have hids := congrArg List.length (hM.fieldOffsets_types types)
    rwa [List.length_map] at hids
  have hmem : ∀ y ∈ M.W.fieldOffsets types, ReadOk M canon ra y.2 := by
    intro y hy
    refine h y.2 ?_
    rw [← hM.fieldOffsets_types types]
    exact List.mem_map_of_mem hy
  obtain ⟨code, ys, n', hlen, hemits, hcomp⟩ := readsEach hmem addr n offset
  refine ⟨code, ys, n', hlen.trans hoffsets, ?_, hcomp⟩
  rw [forEachField_eq (T := M.toTarget) hM types (readFromMemory M.W)]
  exact hemits

theorem reads_fields {ty : Ty} {types : List Ty} (hM : M.W.Lawful M.p)
    (hf : ty.fieldTypes = some types) (h : ∀ t ∈ types, ReadOk M canon ra t) :
    ReadOk M canon ra ty := by
  intro addr n offset
  obtain ⟨i, hfields, -, hread⟩ := lift_fields_eq (W := M.W) (B := recorder M.W canon) hf
  have hi := hfields.compose (M := M)
  obtain ⟨code, ys, n', hys, hemits, hcomp⟩ := readsFields hM h addr n offset
  have hinst : Emits ra (emit M.W i : RGen M.W canon Unit) ys n' () [n']
      [Code.Stmt.mk (Op.inst i) ys []] (n' + 1) := Emits.emit (by rw [hys, hi.operands]) hi.blocks hi.results
  rw [hread]
  refine ⟨_, n', _, hemits.bind hinst, ?_⟩
  intro ctx env a hn haddr
  beta_reduce
  rw [load_fields hf, loadFields_eq (T := M.toTarget) hM]
  exact hi.computes hys (hcomp ctx env a hn haddr)

/-- The loop of `lift` over the elements of a fixed-length list. -/
theorem liftsElements {t : Ty} (h : LiftOk M canon ra t) (k : Nat) {args : List Nat}
    (hlen : args.length = (M.W.pushFlat t).length * k) (n : Nat) :
    ∃ code ys n', ys.length = k ∧
      Emits ra (liftEach (M.W.pushFlat t).length (lift M.W t) k args : RGen M.W canon Unit) [] n ()
        ys code n' ∧
      ∀ ctx env ws, env.length = n → lookup env args = some (ws.map .word) →
        Computes M.step code ctx env n'
          ((chunks (List.replicate k (M.W.pushFlat t).length) ws).mapM fun c =>
            liftFlat M.toTarget t c) fun env' vs => lookup env' ys = some (vs.map .val) := by
  induction k generalizing args n with
  | zero =>
    refine ⟨[], [], n, rfl, Emits.pure, ?_⟩
    rintro ctx env ws rfl _
    exact Computes.nil (lookup_nil env)
  | succ k ih =>
    rw [Nat.mul_succ] at hlen
    have hle : (M.W.pushFlat t).length ≤ args.length := by omega
    obtain ⟨code₁, y, n₁, hemits₁, hcomp₁⟩ := h (args.take (M.W.pushFlat t).length) n
      (by rw [List.length_take, Nat.min_eq_left hle])
    have hrestLen : (args.drop (M.W.pushFlat t).length).length =
        (M.W.pushFlat t).length * k := by rw [List.length_drop]; omega
    obtain ⟨code₂, ys, n₂, hlen₂, hemits₂, hcomp₂⟩ := ih hrestLen n₁
    refine ⟨code₁ ++ code₂, [y] ++ ys, n₂, by simp [hlen₂], ?_, ?_⟩
    · rw [liftEach]
      exact (Emits.slice hle).then ((Emits.extend _).then
        (hemits₁.bind (hemits₂.above [y])))
    · intro ctx env ws hn hws
      rw [List.replicate_succ, chunks, List.mapM_cons]
      have hfirst := lookup_take hws (M.W.pushFlat t).length
      rw [← List.map_take] at hfirst
      refine Computes.append (hcomp₁ ctx env _ hn hfirst) fun env₁ v hpre₁ henv₁ hv => ?_
      have hrest := lookup_drop (lookup_mono hpre₁ hws) (M.W.pushFlat t).length
      rw [← List.map_drop] at hrest
      rw [← map_eq_pure_bind]
      exact (hcomp₂ ctx env₁ _ henv₁ hrest).map fun env₂ vs hpre₂ _ hvs =>
        lookup_cons (getElem?_mono hpre₂ hv) hvs

theorem lifts_fixedLengthList {id : TypeId} {t : Ty} {k : Nat} (hM : M.W.Lawful M.p)
    (hmax : (M.W.pushFlat t).length ≤ maxFlatParams) (h : LiftOk M canon ra t) :
    LiftOk M canon ra (.fixedLengthList id t k) := by
  intro xs n hlen
  have hargs : xs.length = (M.W.pushFlat t).length * k := by
    rw [hlen, hM.flat_fixedLengthList]
    simp [Nat.mul_comm]
  obtain ⟨code, ys, n', hys, hemits, hcomp⟩ := liftsElements h k hargs n
  have hi : IsCompose M (.fixedLengthListLift t k id) k .list := by
    refine ⟨rfl, rfl, rfl, fun ctx vs hvs => ?_⟩
    show (require ((vs.map RVal.val).mapM RVal.asVal) >>= fun vs =>
      if vs.length = k then pure [RVal.val (Val.list vs)] else stuck : Machine.Results) = _
    rw [mapM_asVal, require_some, pure_bind, if_pos hvs]
  have hinst : Emits ra (emit M.W (.fixedLengthListLift t k id) : RGen M.W canon Unit) ys n' ()
      [n'] [Code.Stmt.mk (Op.inst (.fixedLengthListLift t k id)) ys []] (n' + 1) := Emits.emit hys rfl rfl
  rw [lift]
  refine ⟨_, n', _, (Emits.flatTypes hmax).then ((Emits.drain hargs).then (hemits.bind hinst)), ?_⟩
  intro ctx env ws hn hws
  rw [liftFlat]
  exact hi.computes hys (hcomp ctx env ws hn hws)

/-! ## Arms -/

/-- `i` runs the block of the case its operand names. -/
structure IsLiftCase (M : Machine) (i : Instruction) (arms : List (Option Ty)) : Prop where
  operands : i.operandsLen M.W = 1
  results : i.resultsLen M.W = 1
  blocks : i.blockResults = arms.map fun o => if o.isSome then 1 else 0
  sem : ∀ ctx blocks x, M.instSem i ctx blocks [x] = Machine.liftCase ctx blocks x

theorem ArmsLift.liftCase {ty : Ty} {arms : List (Option Ty)} {i : Instruction}
    (h : ArmsLift ty arms i) : IsLiftCase M i arms := by
  cases h with
  | variant => exact ⟨rfl, rfl, by rw [List.map_map]; rfl, fun _ _ _ => rfl⟩
  | option | result => exact ⟨rfl, rfl, rfl, fun _ _ _ => rfl⟩

/-- What an arm hands back: its payload, if it has one. -/
def payloadResults (o : Option Val) : List RVal := (o.map RVal.val).toList

/-- Picking a block by the discriminant. -/
theorem agree_liftCase {arms : List (Option Ty)} {ctx : Ctx} {blocks : List Machine.BlockRun}
    {x : RVal} {s : Option Ty → Exec Event (Option Val)} (hlen : blocks.length = arms.length)
    (h : ∀ (d : Nat) (b : Machine.BlockRun) (arm : Option Ty), blocks[d]? = some b →
      arms[d]? = some arm →
      Agree (fun rs o => rs = payloadResults o) (b ctx) (s arm)) :
    Agree (fun rs v => rs = [.val v]) (Machine.liftCase ctx blocks x)
      (require (x.bits .i32) >>= fun d => require arms[d]? >>= fun arm =>
        s arm >>= fun o => pure (.variant d o)) := by
  rw [Machine.liftCase]
  refine Agree.require fun d _ => ?_
  by_cases hd : d < arms.length
  · have hd' : d < blocks.length := by rw [hlen]; exact hd
    rw [List.getElem?_eq_getElem hd, List.getElem?_eq_getElem hd', require_some, require_some,
      pure_bind, pure_bind]
    refine (h d _ _ (List.getElem?_eq_getElem hd') (List.getElem?_eq_getElem hd)).bind ?_
    rintro rs (_ | v) rfl
    · exact Agree.pure rfl
    · exact Agree.pure rfl
  · rw [List.getElem?_eq_none (by omega), List.getElem?_eq_none (by omega)]
    exact Agree.stuck

/-- What an arm is lifted from: its part of the slots, cast back. -/
def liftPayload (T : Target) (slots : List WasmType) (ws : List Word) :
    Option Ty → Exec Event (Option Val)
  | none => pure none
  | some t => unjoin T slots t ws >>= fun ws' => some <$> liftFlat T t ws'

/-- The block of the case `arm`, in a scope of `n` values with the slots at
`inputs`. -/
def LiftArmBlock (M : Machine) (slots : List WasmType) (inputs : List Nat) (n : Nat)
    (arm : Option Ty) (b : CBlock) : Prop :=
  b.results.length = (if arm.isSome then 1 else 0) ∧
    ∀ (ctx : Ctx) env ws, env.length = n → lookup env inputs = some (ws.map .word) →
      Agree (fun rs o => rs = payloadResults o) (execBlock M.step b env ctx)
        (liftPayload M.toTarget slots ws arm)

theorem castWords_take (p : Nat) (src dst : List WasmType) (ws : List Word) :
    castWords p (src.take dst.length) dst (ws.take dst.length) = castWords p src dst ws := by
  have hzip : ((src.take dst.length).zip dst).zip (ws.take dst.length) =
      (src.zip dst).zip ws := by
    induction dst generalizing src ws with
    | nil => simp
    | cons t dst ih =>
      cases src with
      | nil => simp
      | cons a src =>
        cases ws with
        | nil => simp
        | cons w ws => simp [ih]
  rw [castWords, castWords, hzip]

theorem flatForVariantArm_ok (hM : M.W.Lawful M.p) {slots : List WasmType} {arm : Option Ty}
    (harm : ∀ t, arm = some t → LiftOk M canon ra t ∧
      (M.W.pushFlat t).length ≤ maxFlatParams ∧ (M.W.pushFlat t).length ≤ slots.length ∧
      List.Forall₂ WasmType.JoinsInto (M.W.pushFlat t) (slots.take (M.W.pushFlat t).length))
    {inputs : List Nat} (hinputs : inputs.length = slots.length) (ops : List Nat) (n : Nat) :
    ∃ b, LiftArmBlock M slots inputs n arm b ∧
      Finishes ra (flatForVariantArm M.W (.i32 :: slots) true inputs
        (arm.map fun t => (t, lift M.W t)) : RGen M.W canon Unit) ops n () ops [b] := by
  cases arm with
  | none =>
    refine ⟨.mk [] [], ⟨rfl, ?_⟩, Finishes.effectBlock Emits.pure ops⟩
    rintro ctx env ws rfl _
    exact (execBlock_agree (f := payloadResults)
      (Computes.nil (b := none) (lookup_nil env))).mono fun _ _ h => h.2
  | some t =>
    obtain ⟨hok, hmax, hfit, hjoin⟩ := harm t rfl
    obtain ⟨casts, hcasts, hcastsLen⟩ := castAll_outOf hjoin
    have htake : (inputs.take (M.W.pushFlat t).length).length = (M.W.pushFlat t).length := by
      rw [List.length_take, hinputs, Nat.min_eq_left hfit]
    obtain ⟨code₁, outs₁, n₁, hlen₁, hemits₁, hcomp₁⟩ :=
      emitCasts_ok canon ra hM.width hcasts (htake.trans hcastsLen.symm) n
    obtain ⟨code₂, y, n₂, hemits₂, hcomp₂⟩ := hok outs₁ n₁ (hlen₁.trans htake)
    refine ⟨.mk (code₁ ++ code₂) [y], ⟨rfl, ?_⟩, Finishes.block
      (((Emits.flatTypes hmax).then ((Emits.slice (hinputs ▸ hfit)).then
        ((Emits.extend _).then (hemits₁.bind hemits₂)))).above ops) rfl⟩
    intro ctx env ws hn hws
    have hpayload : Computes M.step (code₁ ++ code₂) ctx env n₂
        (liftPayload M.toTarget slots ws (some t)) fun env' o =>
          lookup env' [y] = some (payloadResults o) := by
      have hfirst := lookup_take hws (M.W.pushFlat t).length
      rw [← List.map_take] at hfirst
      have hcast := hcomp₁ ctx env _ hn hfirst
      rw [castWords_take] at hcast
      refine Computes.append hcast fun env₁ ws' _ henv₁ hws' => ?_
      exact (hcomp₂ ctx env₁ ws' henv₁ hws').map fun env₂ v _ _ hv => lookup_one hv
    exact (execBlock_agree hpayload).mono fun _ _ h => h.2

theorem liftFlat_payload {T : Target} {ty : Ty} {arms : List (Option Ty)}
    (ha : ty.arms = some arms) (d : Word) (ws : List Word) : liftFlat T ty (d :: ws) =
      (require (bitsOf .i32 [d]) >>= fun i => require arms[i]? >>= fun arm =>
        liftPayload T (T.slotTys ty) ws arm >>= fun o => pure (.variant i o)) := by
  rw [liftFlat_arms ha, liftArm, List.take_succ_cons, List.take_zero, List.tail_cons]
  congr 1
  funext i
  rw [List.getElem?_map]
  cases arms[i]? with
  | none => rfl
  | some arm =>
    rw [Option.map_some, require_some, require_some, pure_bind, pure_bind]
    cases arm with
    | none => rfl
    | some t => simp [liftPayload]

theorem lifts_arms {ty : Ty} {arms : List (Option Ty)} (hM : M.W.Lawful M.p)
    (ha : ty.arms = some arms) (hflat : (M.W.pushFlat ty).length ≤ maxFlatParams)
    (h : ∀ t, some t ∈ arms → LiftOk M canon ra t) : LiftOk M canon ra ty := by
  intro xs n hlen
  obtain ⟨slots, hslots, hjoin⟩ := hM.flat_arms ty arms ha
  obtain ⟨i, harms, hlift, -⟩ := lift_arms_eq (W := M.W) (B := recorder M.W canon) ha
  have hi := harms.liftCase (M := M)
  have hslotTys : M.toTarget.slotTys ty = slots := by rw [Target.slotTys, hslots, List.tail_cons]
  rw [hslots, List.length_cons] at hlen
  obtain ⟨d, inputs, rfl⟩ := List.exists_cons_of_length_eq_add_one hlen
  have hinputs : inputs.length = slots.length := by simpa using hlen
  have harm : ∀ arm ∈ arms, ∃ b, LiftArmBlock M slots inputs n arm b ∧
      Finishes ra (flatForVariantArm M.W (.i32 :: slots) true inputs
        (arm.map fun t => (t, lift M.W t)) : RGen M.W canon Unit) [d] n () [d] [b] := by
    intro arm hmem
    refine flatForVariantArm_ok hM (fun t ht => ?_) hinputs [d] n
    obtain rfl := ht
    obtain ⟨hfit, hjoins⟩ := hjoin t hmem
    refine ⟨h t hmem, ?_, hfit, hjoins⟩
    rw [hslots, List.length_cons] at hflat
    omega
  obtain ⟨blocks, hblocks, hfinish⟩ := Finishes.forM arms harm
  have hresults : blocks.map (·.results.length) = arms.map fun o => if o.isSome then 1 else 0 :=
    blockResults_of hblocks fun _ _ hb => hb.1
  have hall : Finishes ra (flatForEachVariantArm M.W ty true
      (arms.map fun o => o.map fun t => (t, lift M.W t)) : RGen M.W canon Unit) (d :: inputs) n ()
      [d] blocks := by
    have hflatTypes : Finishes ra (flatTypes M.W ty : RGen M.W canon (List WasmType)) (d :: inputs)
        n (.i32 :: slots) (d :: inputs) [] := hslots ▸ Finishes.flatTypes hflat
    have hdrain : Finishes ra (drain ((WasmType.i32 :: slots).length - 1) :
        RGen M.W canon (List Nat)) (d :: inputs) n inputs [d] [] := by
      have hinner : Finishes ra (drain ((WasmType.i32 :: slots).length - 1) :
          RGen M.W canon (List Nat)) inputs n inputs [] [] := Finishes.drain hinputs
      exact hinner.frame [d]
    have hloop : ((arms.map fun o => o.map fun t => (t, lift M.W t)).forM
        (flatForVariantArm M.W (.i32 :: slots) true inputs) : RGen M.W canon PUnit) =
        arms.forM fun arm => flatForVariantArm M.W (.i32 :: slots) true inputs
          (arm.map fun t => (t, lift M.W t)) := by
      simp [List.forM_map]
    rw [← hloop] at hfinish
    exact hflatTypes.bind (hdrain.bind hfinish)
  have hemits := hall.emit (i := fun _ => i) hi.operands.symm (hresults.trans hi.blocks.symm)
    hi.results
  rw [hlift]
  refine ⟨_, _, _, hemits, ?_⟩
  intro ctx env ws hn hws
  obtain ⟨w, us, rfl⟩ := List.exists_cons_of_length_eq_add_one
    ((by simpa using lookup_length hws : ws.length = inputs.length + 1))
  rw [List.map_cons] at hws
  obtain ⟨hd, hus⟩ := lookup_cons_inv hws
  refine computes_val hn (lookup_one hd) ?_
  rw [hi.sem, liftFlat_payload ha, hslotTys]
  have hblen : (blocks.map (execBlock M.step · env)).length = arms.length := by
    rw [List.length_map, hblocks.length_eq]
  refine agree_liftCase hblen fun j b arm hb harm => ?_
  rw [List.getElem?_map, Option.map_eq_some_iff] at hb
  obtain ⟨blk, hblk, rfl⟩ := hb
  exact (block_at hblocks hblk harm).2 ctx env us hn hus

/-- The block of the case `arm`, in a scope of `n` values with the address of
the variant at `addr`. -/
def ReadArmBlock (M : Machine) (payloadOffset : ArchitectureSize) (addr n : Nat)
    (arm : Option Ty) (b : CBlock) : Prop :=
  b.results.length = (if arm.isSome then 1 else 0) ∧
    ∀ (ctx : Ctx) env a, env.length = n → env[addr]? = some (.ptr a) →
      Agree (fun rs o => rs = payloadResults o) (execBlock M.step b env ctx)
        (loadPayload M.toTarget (a + payloadOffset.eval M.p) arm)

theorem readVariantArm_ok {arm : Option Ty} (h : ∀ t, arm = some t → ReadOk M canon ra t)
    (payloadOffset : ArchitectureSize) (ops : List Nat) (addr n : Nat) :
    ∃ b, ReadArmBlock M payloadOffset addr n arm b ∧
      Finishes ra (readVariantArm payloadOffset addr
        (arm.map fun t => (t, readFromMemory M.W t)) : RGen M.W canon Unit) ops n () ops [b] := by
  cases arm with
  | none =>
    refine ⟨.mk [] [], ⟨rfl, ?_⟩, Finishes.effectBlock Emits.pure ops⟩
    rintro ctx env a rfl _
    exact (execBlock_agree (f := payloadResults)
      (Computes.nil (b := none) (lookup_nil env))).mono fun _ _ h => h.2
  | some t =>
    obtain ⟨code, y, n', hemits, hcomp⟩ := h t rfl addr n payloadOffset
    refine ⟨.mk code [y], ⟨rfl, ?_⟩, Finishes.block (hemits.above ops) rfl⟩
    intro ctx env a hn haddr
    have hpayload : Computes M.step code ctx env n'
        (loadPayload M.toTarget (a + payloadOffset.eval M.p) (some t)) fun env' o =>
          lookup env' [y] = some (payloadResults o) :=
      (hcomp ctx env a hn haddr).map fun env' v _ _ hv => lookup_one hv
    exact (execBlock_agree hpayload).mono fun _ _ h => h.2

theorem reads_arms {ty : Ty} {arms : List (Option Ty)} (hM : M.W.Lawful M.p)
    (ha : ty.arms = some arms) (h : ∀ t, some t ∈ arms → ReadOk M canon ra t) :
    ReadOk M canon ra ty := by
  intro addr n offset
  obtain ⟨i, harms, -, hread⟩ := lift_arms_eq (W := M.W) (B := recorder M.W canon) ha
  have hi := harms.liftCase (M := M)
  have htag : M.W.armTag ty ≠ .u64 := by
    cases ty with
    | variant id name cases => exact hM.tag_ne_u64 cases.length
    | _ => simp [WitParser.armTag]
  obtain ⟨inst, hinst, hload⟩ := isLoad_intrepr M canon offset htag
  have harm : ∀ arm ∈ arms, ∃ b,
      ReadArmBlock M (offset + M.W.payloadOffset (M.W.armTag ty) arms) addr (n + 1) arm b ∧
      Finishes ra (readVariantArm (offset + M.W.payloadOffset (M.W.armTag ty) arms) addr
        (arm.map fun t => (t, readFromMemory M.W t)) : RGen M.W canon Unit) [n] (n + 1) () [n]
        [b] := by
    intro arm hmem
    refine readVariantArm_ok (fun t ht => ?_) _ [n] addr (n + 1)
    obtain rfl := ht
    exact h t hmem
  obtain ⟨blocks, hblocks, hfinish⟩ := Finishes.forM arms harm
  have hresults : blocks.map (·.results.length) = arms.map fun o => if o.isSome then 1 else 0 :=
    blockResults_of hblocks fun _ _ hb => hb.1
  have hloop : ((arms.map fun o => o.map fun t => (t, readFromMemory M.W t)).forM
      (readVariantArm (offset + M.W.payloadOffset (M.W.armTag ty) arms) addr) :
        RGen M.W canon PUnit) =
      arms.forM fun arm => readVariantArm (offset + M.W.payloadOffset (M.W.armTag ty) arms) addr
        (arm.map fun t => (t, readFromMemory M.W t)) := by
    simp [List.forM_map]
  rw [← hloop] at hfinish
  have hcase := hfinish.emit (i := fun _ => i) hi.operands.symm (hresults.trans hi.blocks.symm)
    hi.results
  have hdisc : Emits ra (loadIntrepr M.W offset (M.W.armTag ty) : RGen M.W canon Unit) [addr] n ()
      [n] [Code.Stmt.mk (Op.inst inst) [addr] []] (n + 1) := hinst ▸ hload.emits addr
  have hall : Emits ra (readFromMemory M.W ty addr offset : RGen M.W canon Unit) [] n () [n + 1]
      ([Code.Stmt.mk (Op.inst inst) [addr] []] ++ [Code.Stmt.mk (Op.inst i) [n] blocks]) (n + 1 + 1) := by
    rw [hread, readVariantArmsFromMemory, armTypes_map]
    simp only [bind_assoc]
    exact (Emits.push addr).then (hdisc.bind hcase)
  refine ⟨_, n + 1, _, hall, ?_⟩
  intro ctx env a hn haddr
  beta_reduce
  rw [load_payload ha]
  refine Computes.append (hload.computes ctx hn haddr) fun env₁ d hpre henv₁ hd => ?_
  refine computes_val henv₁ (lookup_one hd) ?_
  have hspec : (require arms[d]? >>= fun arm => loadPayload M.toTarget
      (a + offset.eval M.p + M.toTarget.payloadOffset ty arms) arm >>= fun o =>
        (pure (.variant d o) : Exec Event Val)) =
      (require ((RVal.word ⟨.i32, id d⟩).bits .i32) >>= fun d => require arms[d]? >>= fun arm =>
        loadPayload M.toTarget (a + offset.eval M.p + M.toTarget.payloadOffset ty arms) arm >>=
          fun o => pure (.variant d o)) := rfl
  rw [hi.sem, hspec]
  have hblen : (blocks.map (execBlock M.step · env₁)).length = arms.length := by
    rw [List.length_map, hblocks.length_eq]
  refine agree_liftCase hblen fun j b arm hb harm => ?_
  rw [List.getElem?_map, Option.map_eq_some_iff] at hb
  obtain ⟨blk, hblk, rfl⟩ := hb
  have hrun := (block_at hblocks hblk harm).2 ctx env₁ a henv₁ (getElem?_mono hpre haddr)
  rwa [ArchitectureSize.eval_add, ← Nat.add_assoc] at hrun

/-! ## Every type -/

theorem reads_handle {i : Instruction} (hops : i.operandsLen M.W = 1)
    (hblocks : i.blockResults = []) (hk : i.resultsLen M.W = 1)
    (hsem : ∀ ctx w, M.instSem i ctx [] [.word w] = Machine.liftHandleOp (.word w))
    (addr : Nat) (offset : ArchitectureSize) :
    Reads M ra (emitAndLift M.W (emit M.W i) addr (.i32Load offset) : RGen M.W canon Unit) addr n
      (fun a => loadHandle (a + offset.eval M.p)) :=
  (Reads.emitAndLift isLoad_i32 fun x n => lifts_handle x hops hblocks hk hsem).congr fun a => by
    simp [loadHandle, liftHandle, bitsOf]

theorem reads_prim (q : Prim) : ReadOk M canon ra (.prim q) := by
  intro addr n offset
  rw [readFromMemory, lift]
  refine (Reads.emitAndLift (isLoad_prim q) fun x n => lifts_prim q x).congr fun a => ?_
  simp [load, liftFlat, bitsOf]

theorem reads_flags (id : TypeId) (name : String) (names : List String) :
    ReadOk M canon ra (.flags id name names) := by
  intro addr n offset
  rw [readFromMemory, lift]
  obtain ⟨code, outs, n', hlen, hemits, hcomp⟩ :=
    loadFlags_repr M canon ra addr offset (M.W.flagsRepr names.length) n
  obtain ⟨code₂, y, n₂, hemits₂, hcomp₂⟩ :=
    lifts_flags M canon ra n' id name names hlen
  refine ⟨_, y, n₂, hemits.bind hemits₂, ?_⟩
  intro ctx env a hn haddr
  beta_reduce
  rw [load]
  refine Computes.append (hcomp ctx env a hn haddr) fun env₁ ws _ henv₁ hws => ?_
  have hcount : ws.length = (M.W.flagsRepr names.length).count := by
    rw [← hlen, ← lookup_length hws, List.length_map]
  have hwords := hcomp₂ ctx env₁ (ws.map fun w => ⟨.i32, w⟩) henv₁ (by rw [List.map_map]; exact hws)
  have hbits : i32sOf (M.W.flagsRepr names.length).count (ws.map fun w => ⟨.i32, w⟩) = some ws := by
    simp [i32sOf, hcount, Function.comp_def]
  rw [liftFlat, hbits, require_some, pure_bind] at hwords
  exact hwords

theorem reads_enum (hM : M.W.Lawful M.p) (id : TypeId) (name : String) (cases' : List String) :
    ReadOk M canon ra (.enum id name cases') := by
  intro addr n offset
  rw [readFromMemory, lift]
  obtain ⟨i, hi, hload⟩ := isLoad_intrepr M canon offset (hM.tag_ne_u64 cases'.length)
  have hreads : Reads M ra (emitAndLift M.W (emit M.W (.enumLift cases' name id)) addr i :
      RGen M.W canon Unit) addr n _ :=
    Reads.emitAndLift hload fun x n => lifts_enum id name cases' x
  rw [emitAndLift, ← hi] at hreads
  refine hreads.congr fun a => ?_
  simp [load, liftFlat, bitsOf]

/-- The code `lift` and `readFromMemory` record does what the canonical ABI says. -/
theorem lift_and_read (hM : M.W.Lawful M.p) {ty : Ty} (hs : ty.Supported) :
    (ty.Valid → (M.W.pushFlat ty).length ≤ maxFlatParams → LiftOk M canon ra ty) ∧
      ReadOk M canon ra ty := by
  induction ty using Ty.ind with
  | prim q =>
    refine ⟨fun _ _ xs n hlen => ?_, reads_prim q⟩
    rw [hM.flat_prim] at hlen
    obtain ⟨x, rfl⟩ := List.length_eq_one_iff.mp hlen
    rw [lift]
    exact lifts_prim q x
  | string =>
    have hstring : ∀ ptr len n, Lifts M ra (lift M.W .string : RGen M.W canon Unit) [ptr, len] n
        (fun ws => require (pairOf ws) >>= liftString) := fun ptr len n => by
      rw [lift]
      exact Lifts.pair rfl rfl rfl fun _ _ _ => rfl
    refine ⟨fun _ _ xs n hlen => ?_, fun addr n offset => ?_⟩
    · rw [hM.flat_string] at hlen
      obtain ⟨ptr, len, rfl⟩ := List.length_eq_two.mp hlen
      exact (hstring ptr len n).congr fun ws _ => by rw [liftFlat]
    · rw [readFromMemory]
      refine (Reads.readListFromMemory hM.align_string hstring).congr fun a => ?_
      rw [load]
      rfl
  | errorContext =>
    refine ⟨fun _ _ xs n hlen => ?_, fun addr n offset => ?_⟩
    · rw [hM.flat_errorContext] at hlen
      obtain ⟨x, rfl⟩ := List.length_eq_one_iff.mp hlen
      rw [lift]
      exact (lifts_handle x rfl rfl rfl fun _ _ => rfl).congr fun ws _ => by rw [liftFlat]
    · rw [readFromMemory, lift]
      refine (reads_handle rfl rfl rfl (fun _ _ => rfl) addr offset).congr fun a => ?_
      rw [load]
  | type id t ih =>
    obtain ⟨hlift, hread⟩ := ih hs.of_type
    refine ⟨fun hv hflat xs n hlen => ?_, fun addr n offset => ?_⟩
    · rw [hM.flat_type] at hflat hlen
      rw [lift]
      exact (hlift hv.of_type hflat xs n hlen).congr fun ws _ => by rw [liftFlat]
    · rw [readFromMemory]
      exact (hread addr n offset).congr fun a => by rw [load]
  | list id t ih =>
    have helem : ReadOk M canon ra t := (ih hs.of_list).2
    have hlist := fun ptr len n => lifts_list id helem ptr len n
    refine ⟨fun _ _ xs n hlen => ?_, fun addr n offset => ?_⟩
    · rw [hM.flat_list] at hlen
      obtain ⟨ptr, len, rfl⟩ := List.length_eq_two.mp hlen
      exact (hlist ptr len n).congr fun ws _ => by rw [liftFlat]
    · rw [readFromMemory]
      refine (Reads.readListFromMemory (hM.align_list id t) hlist).congr fun a => ?_
      rw [load]
      rfl
  | map id k t ihk iht =>
    have hkey : ReadOk M canon ra k := (ihk hs.of_map.1).2
    have hvalue : ReadOk M canon ra t := (iht hs.of_map.2).2
    have hmap := fun ptr len n => lifts_map id hM hkey hvalue ptr len n
    refine ⟨fun _ _ xs n hlen => ?_, fun addr n offset => ?_⟩
    · rw [hM.flat_map] at hlen
      obtain ⟨ptr, len, rfl⟩ := List.length_eq_two.mp hlen
      exact (hmap ptr len n).congr fun ws _ => by rw [liftFlat]
    · rw [readFromMemory]
      refine (Reads.readListFromMemory (hM.align_map id k t) hmap).congr fun a => ?_
      rw [load]
      rfl
  | fixedLengthList id t k ih =>
    obtain ⟨hlift, hread⟩ := ih hs.of_fixedLengthList
    refine ⟨fun hv hflat => ?_, reads_fixedLengthList hread⟩
    obtain ⟨hk, hvt⟩ := hv.of_fixedLengthList
    rw [hM.flat_fixedLengthList] at hflat
    have hmax : (M.W.pushFlat t).length ≤ maxFlatParams :=
      Nat.le_trans (List.sublist_flatten_of_mem
        (List.mem_replicate.mpr ⟨Nat.ne_of_gt hk, rfl⟩)).length_le hflat
    exact lifts_fixedLengthList hM hmax (hlift hvt hmax)
  | fields ty types hf ih =>
    refine ⟨fun hv hflat => lifts_fields hM hf hflat fun t ht => ?_,
      reads_fields hM hf fun t ht => (ih t ht (hs.of_fields hf t ht)).2⟩
    rw [hM.flat_fields ty types hf] at hflat
    have hmax : (M.W.pushFlat t).length ≤ maxFlatParams :=
      Nat.le_trans (List.sublist_flatten_of_mem (List.mem_map_of_mem ht)).length_le hflat
    exact ⟨(ih t ht (hs.of_fields hf t ht)).1 (hv.of_fields hf t ht) hmax, hmax⟩
  | flags id name names =>
    refine ⟨fun _ _ xs n hlen => ?_, reads_flags id name names⟩
    rw [hM.flat_flags, List.length_replicate] at hlen
    rw [lift]
    exact lifts_flags M canon ra n id name names hlen
  | arms ty arms ha ih =>
    obtain ⟨-, hsub⟩ := hs.of_arms ha
    refine ⟨fun hv hflat => lifts_arms hM ha hflat fun t ht => ?_,
      reads_arms hM ha fun t ht => (ih t ht (hsub t ht)).2⟩
    refine (ih t ht (hsub t ht)).1 ((hv.of_arms ha).2 t ht) ?_
    obtain ⟨slots, hslots, hjoin⟩ := hM.flat_arms ty arms ha
    rw [hslots, List.length_cons] at hflat
    exact Nat.le_trans (hjoin t ht).1 (Nat.le_of_succ_le hflat)
  | enum id name cases' =>
    refine ⟨fun _ _ xs n hlen => ?_, reads_enum hM id name cases'⟩
    rw [hM.flat_enum] at hlen
    obtain ⟨x, rfl⟩ := List.length_eq_one_iff.mp hlen
    rw [lift]
    exact lifts_enum id name cases' x
  | handle id h name =>
    refine ⟨fun _ _ xs n hlen => ?_, fun addr n offset => ?_⟩
    · rw [hM.flat_handle] at hlen
      obtain ⟨x, rfl⟩ := List.length_eq_one_iff.mp hlen
      rw [lift]
      exact (lifts_handle x rfl rfl rfl fun _ _ => rfl).congr fun ws _ => by rw [liftFlat]
    · rw [readFromMemory, lift]
      refine (reads_handle rfl rfl rfl (fun _ _ => rfl) addr offset).congr fun a => ?_
      rw [load]
  | future id t =>
    refine ⟨fun _ _ xs n hlen => ?_, fun addr n offset => ?_⟩
    · rw [hM.flat_future] at hlen
      obtain ⟨x, rfl⟩ := List.length_eq_one_iff.mp hlen
      rw [lift]
      exact (lifts_handle x rfl rfl rfl fun _ _ => rfl).congr fun ws _ => by rw [liftFlat]
    · rw [readFromMemory, lift]
      refine (reads_handle rfl rfl rfl (fun _ _ => rfl) addr offset).congr fun a => ?_
      rw [load]
  | stream id t =>
    refine ⟨fun _ _ xs n hlen => ?_, fun addr n offset => ?_⟩
    · rw [hM.flat_stream] at hlen
      obtain ⟨x, rfl⟩ := List.length_eq_one_iff.mp hlen
      rw [lift]
      exact (lifts_handle x rfl rfl rfl fun _ _ => rfl).congr fun ws _ => by rw [liftFlat]
    · rw [readFromMemory, lift]
      refine (reads_handle rfl rfl rfl (fun _ _ => rfl) addr offset).congr fun a => ?_
      rw [load]
  | resource id => exact absurd hs Ty.not_supported_resource
  | unknown id => exact absurd hs Ty.not_supported_unknown

end

end WitBindgen
