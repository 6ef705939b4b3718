import WitBindgen.Machine.RoundTrip
import WitBindgen.Abi.Phases

/-!
# What a call emits

The emission of `Generator::call`, in front of the recorder. A type is
`Disciplined` when its four emitters keep the operand stack and the blocks in
order; every valid type is, and the loops and arms of `call` are put together
from these facts, up to the empty stack at the end.
-/

namespace Code

variable {ι : Type}

/-! ## Instructions at any depth -/

mutual
def stmtOps : Stmt ι → List ι
  | .mk inst _ blocks => inst :: blocksOps blocks
/-- The instructions of a piece of code, with those of its blocks. -/
def codeOps : List (Stmt ι) → List ι
  | [] => []
  | s :: ss => stmtOps s ++ codeOps ss
def blockOps : Block ι → List ι
  | .mk body _ => codeOps body
def blocksOps : List (Block ι) → List ι
  | [] => []
  | b :: bs => blockOps b ++ blocksOps bs
end

theorem codeOps_append (c c' : List (Stmt ι)) : codeOps (c ++ c') = codeOps c ++ codeOps c' := by
  induction c with
  | nil => rw [List.nil_append, codeOps, List.nil_append]
  | cons s c ih => rw [List.cons_append, codeOps, codeOps, ih, List.append_assoc]

theorem blocksOps_append (bs bs' : List (Block ι)) :
    blocksOps (bs ++ bs') = blocksOps bs ++ blocksOps bs' := by
  induction bs with
  | nil => rw [List.nil_append, blocksOps, List.nil_append]
  | cons b bs ih => rw [List.cons_append, blocksOps, blocksOps, ih, List.append_assoc]

end Code

namespace WitBindgen

open Code Generator

/-! ## What the recorder holds -/

/-- Every recorded instruction satisfies `P`. -/
def Op.Sat (P : Instruction → Prop) : Op → Prop
  | .inst i => P i
  | .returnPointer _ _ => True

def Level.ops (l : Level) : List Op := codeOps l.code ++ blocksOps l.pending

/-- Whatever was recorded so far, at any depth, satisfies `P`. -/
def RecorderState.All (P : Instruction → Prop) (s : RecorderState) : Prop :=
  ∀ l ∈ s.cur :: s.outer, ∀ op ∈ l.ops, op.Sat P

theorem recorder_stable (W : WitParser) (c : Ty → Bool) (P : Instruction → Prop) :
    Stable (recorder W c) P (fun _ => RecorderState.All P) (fun _ => True) where
  emit {i ops s rs s' n l} hi _ hemit hs := by
    refine ⟨?_, fun _ _ => trivial⟩
    change (if _ then _ else _) = _ at hemit
    split at hemit <;> cases hemit
    rintro l (_ | ⟨_, hl⟩) op hop
    · have hcur := hs s.cur List.mem_cons_self
      simp only [Level.ops, codeOps_append, codeOps, stmtOps, blocksOps, List.append_nil,
        List.mem_append, List.mem_cons] at hop hcur
      rcases hop with hop | rfl | hop
      · exact hcur op (.inl hop)
      · exact hi
      · exact hcur op (.inr hop)
    · exact hs l (List.mem_cons_of_mem _ hl) op hop
  returnPointer {size align s x s' l} hret hs := by
    refine ⟨?_, trivial⟩
    change (if _ then _ else _) = _ at hret
    split at hret <;> cases hret
    rintro l (_ | ⟨_, hl⟩) op hop
    · have hcur := hs s.cur List.mem_cons_self
      simp only [Level.ops, codeOps_append, codeOps, stmtOps, blocksOps, List.append_nil,
        List.mem_append, List.mem_singleton] at hop hcur
      rcases hop with hop | rfl
      · exact hcur op (.inl hop)
      · trivial
    · exact hs l (List.mem_cons_of_mem _ hl) op hop
  pushBlock {s s' n l} hpush hs := by
    cases hpush
    rintro l (_ | ⟨_, hl⟩) op hop
    · cases hop
    · exact hs l hl op hop
  finishBlock {ops s s' n l} _ hfinish hs := by
    dsimp only [recorder] at hfinish
    split at hfinish
    · cases hfinish
    · next level levels houter =>
        split at hfinish <;> cases hfinish
        have hlevel := hs level (by rw [houter]; simp)
        have hcur := hs s.cur List.mem_cons_self
        rintro l (_ | ⟨_, hl⟩) op hop
        · simp only [Level.ops, blocksOps_append, blocksOps, blockOps, List.append_nil,
            List.mem_append] at hop hlevel hcur
          rcases hop with hop | hop | hop
          · exact hlevel op (.inl hop)
          · exact hlevel op (.inr hop)
          · exact hcur op (.inl hop)
        · exact hs l (by rw [houter]; exact List.mem_cons_of_mem _ (List.mem_cons_of_mem _ hl)) op hop

theorem Generator.Emits.sat {W : WitParser} {c : Ty → Bool} {α : Type} {P : Instruction → Prop}
    {ra : Option Realloc} {g : RGen W c α} {ops outs : List Nat} {n n' : Nat} {x : α}
    {code : List CStmt} (h : Emits ra g ops n x outs code n')
    (hkeeps : Steady (fun _ => RecorderState.All P) (fun _ => True) g) : ∀ op ∈ codeOps code, op.Sat P := by
  have hrun := h [] [] [] none
  intro op hop
  have hstart : RecorderState.All P (⟨⟨[], [], n⟩, []⟩ : RecorderState) := by
    intro l hl op hop
    obtain rfl := List.mem_singleton.mp hl
    cases hop
  refine (hkeeps _ _ _ 0 [] hrun hstart fun _ _ => trivial).1 _ List.mem_cons_self op ?_
  exact List.mem_append_left _ hop

/-! ## Types -/

section
variable (W : WitParser) (c : Ty → Bool)

/-- Lowering a type pops one operand and pushes its core types' worth, lifting does the
reverse, a write pops one, and a read pushes one. The recorder accepts every block. -/
structure Disciplined (t : Ty) : Prop where
  lower : (W.pushFlat t).length ≤ maxFlatParams → ∀ r x n, ∃ code outs n',
    outs.length = (W.pushFlat t).length ∧
      Emits (some r) (Generator.lower W t : RGen W c Unit) [x] n () outs code n'
  write : ∀ r x addr n offset, ∃ code n',
    Emits (some r) (writeToMemory W t addr offset : RGen W c Unit) [x] n () [] code n'
  lift : (W.pushFlat t).length ≤ maxFlatParams → ∀ ra xs n,
    xs.length = (W.pushFlat t).length → ∃ code y n',
      Emits ra (Generator.lift W t : RGen W c Unit) xs n () [y] code n'
  read : ∀ ra addr n offset, ∃ code y n',
    Emits ra (readFromMemory W t addr offset : RGen W c Unit) [] n () [y] code n'

end

theorem Disciplined.of_valid {M : Machine} {c : Ty → Bool} (hM : M.W.Lawful M.p) {t : Ty}
    (ht : t.Valid) : Disciplined M.W c t where
  lower hflat r x n := by
    have hlower : LowerOk M c (some r) t := (lower_and_write hM ht.supported).1 hflat
    obtain ⟨code, outs, n', hlen, hemits, -⟩ := hlower x n
    exact ⟨code, outs, n', hlen, hemits⟩
  write r x addr n offset := by
    have hwrite : WriteOk M c (some r) t := (lower_and_write hM ht.supported).2
    obtain ⟨code, n', hemits, -⟩ := hwrite x addr n offset
    exact ⟨code, n', hemits⟩
  lift hflat ra xs n hlen := by
    have hlift : LiftOk M c ra t := (lift_and_read hM ht.supported).1 ht hflat
    obtain ⟨code, y, n', hemits, -⟩ := hlift xs n hlen
    exact ⟨code, y, n', hemits⟩
  read ra addr n offset := by
    have hread : ReadOk M c ra t := (lift_and_read hM ht.supported).2
    obtain ⟨code, y, n', hemits, -⟩ := hread addr n offset
    exact ⟨code, y, n', hemits⟩

/-! ## Parameters -/

section
variable {W : WitParser} {c : Ty → Bool}

/-- Every parameter in memory leaves `k` operands. -/
theorem forEachParam_emits (ra : Option Realloc) (k : Nat)
    (params : List (Ty × (ArchitectureSize → RGen W c Unit)))
    (h : ∀ p ∈ params, ∀ n offset, ∃ code outs n', outs.length = k ∧
      Emits ra (p.2 offset) [] n () outs code n') (offset : ArchitectureSize) (n : Nat) :
    ∃ code outs n', outs.length = k * params.length ∧
      Emits ra (forEachParam W params offset) [] n () outs code n' := by
  induction params generalizing offset n with
  | nil => exact ⟨[], [], n, rfl, Emits.pure⟩
  | cons p params ih =>
    obtain ⟨ty, run⟩ := p
    obtain ⟨code, outs, n₁, hlen, hrun⟩ :=
      h _ List.mem_cons_self n (W.alignToArch offset (W.align ty))
    obtain ⟨code', outs', n₂, hlen', hrest⟩ := ih (fun q hq => h q (List.mem_cons_of_mem _ hq))
      (W.alignToArch offset (W.align ty) + W.size ty) n₁
    refine ⟨code ++ code', outs ++ outs', n₂, ?_, hrun.bind (hrest.above outs)⟩
    rw [List.length_append, hlen, hlen', List.length_cons]
    ring

/-- `lower_to_memory` leaves the address of the area. -/
theorem lowerToMemory_emits {params : List Ty} (h : ∀ t ∈ params, Disciplined W c t)
    (r : Realloc) (ptr n : Nat) : ∃ code n',
      Emits (some r) (lowerToMemory W params ptr : RGen W c Unit) [] n () [ptr] code n' := by
  obtain ⟨code, outs, n', hlen, hloop⟩ := forEachParam_emits (some r) 0
    (params.zipIdx.map fun x => (x.1, fun offset => do
      emit W (.getArg x.2)
      writeToMemory W x.1 ptr offset)) (by
    intro p hp n offset
    obtain ⟨⟨t, nth⟩, hmem, rfl⟩ := List.mem_map.mp hp
    obtain ⟨code, n', hwrite⟩ :=
      (h t (List.fst_mem_of_mem_zipIdx hmem)).write r n ptr (n + 1) offset
    have harg : Emits (some r) (emit W (.getArg nth) : RGen W c Unit) [] n () [n]
        [Code.Stmt.mk (Op.inst (.getArg nth)) [] []] (n + 1) := Emits.emit rfl rfl rfl
    exact ⟨_, [], n', rfl, harg.bind hwrite⟩) default n
  obtain rfl : outs = [] := List.eq_nil_of_length_eq_zero (by rw [hlen, Nat.zero_mul])
  exact ⟨_, n', hloop.bind (Emits.push ptr)⟩

/-- `read_from_memory` takes the address of the area and leaves the arguments. -/
theorem readParamsFromMemory_emits {params : List Ty} (h : ∀ t ∈ params, Disciplined W c t)
    (ra : Option Realloc) (ptr n : Nat) : ∃ code outs n', outs.length = params.length ∧
      Emits ra (readParamsFromMemory W params : RGen W c Unit) [ptr] n () outs code n' := by
  obtain ⟨code, outs, n', hlen, hloop⟩ := forEachParam_emits ra 1
    (params.map fun ty => (ty, readFromMemory W ty ptr)) (by
    intro p hp n offset
    obtain ⟨t, hmem, rfl⟩ := List.mem_map.mp hp
    obtain ⟨code, y, n', hread⟩ := (h t hmem).read ra ptr n offset
    exact ⟨code, [y], n', rfl, hread⟩) default n
  refine ⟨_, outs, n', ?_, (Emits.pop [] ptr).then hloop⟩
  rw [hlen, Nat.one_mul, List.length_map]

/-- The core types of a list of parameters. -/
def flatLength (W : WitParser) (params : List Ty) : Nat :=
  (params.map fun t => (W.pushFlat t).length).sum

theorem flatLength_cons (t : Ty) (params : List Ty) :
    flatLength W (t :: params) = (W.pushFlat t).length + flatLength W params := by
  simp [flatLength]

theorem lowerArgs_emits {params : List Ty} (h : ∀ t ∈ params, Disciplined W c t)
    (hflat : flatLength W params ≤ maxFlatParams) (r : Realloc) (n : Nat) :
    ∃ code outs n', outs.length = flatLength W params ∧
      Emits (some r) (lowerArgs W params : RGen W c Unit) [] n () outs code n' := by
  rw [lowerArgs]
  generalize hi : 0 = i
  clear hi
  induction params generalizing i n with
  | nil => exact ⟨[], [], n, rfl, Emits.pure⟩
  | cons t params ih =>
    rw [flatLength_cons] at hflat
    have harg : Emits (some r) (emit W (.getArg i) : RGen W c Unit) [] n () [n]
      [Code.Stmt.mk (Op.inst (.getArg i)) [] []] (n + 1) := Emits.emit rfl rfl rfl
    obtain ⟨code, outs, n₁, hlen, hlower⟩ :=
      (h t List.mem_cons_self).lower (by omega) r n (n + 1)
    obtain ⟨code', outs', n₂, hlen', hrest⟩ :=
      ih (fun u hu => h u (List.mem_cons_of_mem _ hu)) (by omega) n₁ (i + 1)
    refine ⟨_, outs ++ outs', n₂, ?_, (harg.bind hlower).bind (hrest.above outs)⟩
    rw [List.length_append, hlen, hlen', flatLength_cons]

theorem getArgs_emits (ra : Option Realloc) (offset k n : Nat) : ∃ code outs n',
    outs.length = k ∧ Emits ra (getArgs W offset k : RGen W c Unit) [] n () outs code n' := by
  rw [getArgs]
  induction k generalizing offset n with
  | zero => exact ⟨[], [], n, rfl, Emits.pure⟩
  | succ k ih =>
    have harg : Emits ra (emit W (.getArg offset) : RGen W c Unit) [] n () [n]
      [Code.Stmt.mk (Op.inst (.getArg offset)) [] []] (n + 1) := Emits.emit rfl rfl rfl
    obtain ⟨code, outs, n', hlen, hrest⟩ := ih (offset + 1) (n + 1)
    rw [List.range'_succ]
    exact ⟨_, [n] ++ outs, n', by rw [List.length_append, hlen, Nat.add_comm]; rfl,
      harg.bind (hrest.above [n])⟩

/-- Direct arguments are lifted one after the other. -/
theorem liftArgs_emits {params : List Ty} (h : ∀ t ∈ params, Disciplined W c t)
    (hflat : flatLength W params ≤ maxFlatParams) (ra : Option Realloc) (offset n : Nat) :
    ∃ code outs n', outs.length = params.length ∧
      Emits ra (liftArgs W maxFlatParams params offset : RGen W c Unit) [] n () outs code
        n' := by
  induction params generalizing offset n with
  | nil => exact ⟨[], [], n, rfl, Emits.pure⟩
  | cons t params ih =>
    rw [flatLength_cons] at hflat
    have hfits : (W.pushFlat t).length ≤ maxFlatParams := by omega
    have htypes : W.flatTypes t (some maxFlatParams) = some (W.pushFlat t) := if_pos hfits
    obtain ⟨code₀, args, n₀, hargs, hget⟩ :=
      getArgs_emits (W := W) (c := c) ra offset (W.pushFlat t).length n
    obtain ⟨code, y, n₁, hlift⟩ := (h t List.mem_cons_self).lift hfits ra args n₀ hargs
    obtain ⟨code', outs', n₂, hlen', hrest⟩ :=
      ih (fun u hu => h u (List.mem_cons_of_mem _ hu)) (by omega)
        (offset + (W.pushFlat t).length) n₁
    rw [liftArgs, htypes, orPanic]
    refine ⟨_, [y] ++ outs', n₂, ?_,
      Emits.then Emits.pure (hget.bind (hlift.bind (hrest.above [y])))⟩
    simp [hlen']

end

/-! ## Core signatures -/

/-- What `call` relies on in the signature of a core import. -/
structure ImportSignature (W : WitParser) (func : Function) (sig : WasmSignature) : Prop where
  direct : sig.indirectParams = false → flatLength W func.paramTypes ≤ maxFlatParams
  params : sig.params.length = (if sig.indirectParams then 1 else flatLength W func.paramTypes) +
    (if sig.retptr then 1 else 0)
  retptr : sig.retptr = true → sig.results = []
  results : sig.retptr = false →
    sig.results = (func.result.map W.pushFlat).getD [] ∧ sig.results.length ≤ maxFlatParams

/-- What `call` relies on in the signature of a core export. -/
structure ExportSignature (W : WitParser) (func : Function) (sig : WasmSignature) : Prop where
  direct : sig.indirectParams = false → flatLength W func.paramTypes ≤ maxFlatParams
  retptr : sig.retptr = true → sig.results = [.pointer]
  results : sig.retptr = false →
    sig.results = (func.result.map W.pushFlat).getD [] ∧ sig.results.length ≤ maxFlatParams

/-- What the generator relies on in core signatures. -/
structure WitParser.Signatures (W : WitParser) : Prop where
  imported : ∀ func, ImportSignature W func (W.wasmSignature .guestImport func)
  exported : ∀ func, ExportSignature W func (W.wasmSignature .guestExport func)
  exportedAsync : ∀ func, (W.wasmSignature .guestExportAsync func).indirectParams = false →
    flatLength W func.paramTypes ≤ maxFlatParams
  /-- a result of more than one core type is left in memory -/
  retptr : ∀ func ty, func.result = some ty →
    ((W.wasmSignature .guestExport func).retptr = true ↔ 1 < (W.pushFlat ty).length)

theorem flatLength_canonical (params : List Ty) :
    flatLength .canonical params = (params.map Ty.pushFlat).flatten.length := by
  rw [List.length_flatten, List.map_map]
  rfl

/-- More than sixteen core types are passed by one pointer; a method's own handle is a
pointer to an export, which leaves the number of core types as it is. -/
theorem flatParams_cases (variant : AbiVariant) (func : Function)
    (hsync : variant ≠ .guestImportAsync) :
    flatParams variant func = ([.pointer], true) ∨
      ∃ params, flatParams variant func = (params, false) ∧
        params.length = flatLength .canonical func.paramTypes ∧
        flatLength .canonical func.paramTypes ≤ maxFlatParams := by
  have hmax : flatParams variant func =
      if maxFlatParams < (func.paramTypes.map Ty.pushFlat).flatten.length then
        ([.pointer], true)
      else ((flatParams variant func).1, false) := by
    cases variant with
    | guestImportAsync => exact absurd rfl hsync
    | _ =>
      unfold flatParams
      dsimp only
      split
      · rfl
      · split <;> rfl
  rw [flatLength_canonical]
  by_cases hflat : maxFlatParams < (func.paramTypes.map Ty.pushFlat).flatten.length
  · rw [hmax, if_pos hflat]
    exact .inl rfl
  · refine .inr ⟨(flatParams variant func).1, ?_, ?_, Nat.not_lt.mp hflat⟩
    · conv_lhs => rw [hmax, if_neg hflat]
    · cases variant with
      | guestImportAsync => exact absurd rfl hsync
      | _ =>
        unfold flatParams
        dsimp only
        rw [if_neg hflat]
        split <;> simp_all

theorem importSignature_canonical (func : Function) :
    ImportSignature .canonical func (wasmSignature .guestImport func) := by
  rw [wasmSignature]
  rcases flatParams_cases .guestImport func nofun with
    hfp | ⟨params, hfp, hlen, hmax⟩ <;> rw [hfp] <;> dsimp only <;> split
  · next hone => exact ⟨nofun, rfl, nofun, fun _ => ⟨rfl, Nat.le_trans hone (by decide)⟩⟩
  · exact ⟨nofun, rfl, fun _ => rfl, nofun⟩
  · next hone =>
      exact ⟨fun _ => hmax, hlen, nofun, fun _ => ⟨rfl, Nat.le_trans hone (by decide)⟩⟩
  · exact ⟨fun _ => hmax, by rw [List.length_append, hlen]; rfl, fun _ => rfl, nofun⟩

theorem exportSignature_canonical (func : Function) :
    ExportSignature .canonical func (wasmSignature .guestExport func) := by
  rw [wasmSignature]
  rcases flatParams_cases .guestExport func nofun with
    hfp | ⟨params, hfp, -, hmax⟩ <;> rw [hfp] <;> dsimp only <;> split
  · next hone => exact ⟨nofun, nofun, fun _ => ⟨rfl, Nat.le_trans hone (by decide)⟩⟩
  · exact ⟨nofun, fun _ => rfl, nofun⟩
  · next hone => exact ⟨fun _ => hmax, nofun, fun _ => ⟨rfl, Nat.le_trans hone (by decide)⟩⟩
  · exact ⟨fun _ => hmax, fun _ => rfl, nofun⟩

theorem asyncSignature_direct (func : Function)
    (h : (wasmSignature .guestExportAsync func).indirectParams = false) :
    flatLength .canonical func.paramTypes ≤ maxFlatParams := by
  rw [wasmSignature] at h
  rcases flatParams_cases .guestExportAsync func nofun with
    hfp | ⟨params, hfp, -, hmax⟩ <;> rw [hfp] at h
  · cases h
  · exact hmax

theorem canonical_signatures : WitParser.canonical.Signatures where
  imported := importSignature_canonical
  exported := exportSignature_canonical
  exportedAsync := asyncSignature_direct
  retptr func ty hr := by
    show (wasmSignature .guestExport func).retptr = true ↔ 1 < ty.pushFlat.length
    unfold wasmSignature
    rw [hr, Option.map_some, Option.getD_some]
    dsimp only
    split
    · next hle => simp; omega
    · next hgt => simp; omega

/-! ## Imports -/

section
variable {M : Machine} {c : Ty → Bool} {func : Function} {sig : WasmSignature}

/-- An emission with nothing below its operands. -/
theorem Generator.Emits.run {W : WitParser} {α : Type} {ra : Option Realloc} {g : RGen W c α}
    {ops outs : List Nat} {n n' : Nat} {x : α} {code : List CStmt}
    (h : Emits ra g ops n x outs code n') (code₀ : List CStmt) (rp : Option Nat) :
    g (state ops code₀ [] n [] rp ra) = .ok (x, state outs (code₀ ++ code) [] n' [] rp ra) :=
  h [] code₀ [] rp

theorem setRealloc_ok {W : WitParser} {stack : List Nat} {code : List CStmt} {n : Nat}
    {rp : Option Nat} {ra : Option Realloc} (r : Option Realloc) :
    (setRealloc r : RGen W c Unit) (state stack code [] n [] rp ra) =
      .ok ((), state stack code [] n [] rp r) := rfl

theorem setReturnPointer_ok {W : WitParser} {stack : List Nat} {code : List CStmt} {n : Nat}
    {rp : Option Nat} {ra : Option Realloc} (p : Option Nat) :
    (setReturnPointer p : RGen W c Unit) (state stack code [] n [] rp ra) =
      .ok ((), state stack code [] n [] p ra) := rfl

/-- The result of a function in memory. -/
theorem readResultsFromMemory_emits (hM : M.W.Lawful M.p)
    (hresult : ∀ t ∈ func.result, t.Valid) (ra : Option Realloc) (ptr n : Nat) :
    ∃ code outs n', outs.length = (if func.result.isSome then 1 else 0) ∧
      Emits ra (readResultsFromMemory M.W func.result ptr default : RGen M.W c Unit) [] n ()
        outs code n' := by
  have hread : ∀ t ∈ func.result.toList, ReadOk M c ra t := by
    intro t ht
    exact (lift_and_read hM (hresult t (by simpa using ht)).supported).2
  obtain ⟨code, outs, n', hlen, hemits, -⟩ := readsFields hM hread ptr n default
  refine ⟨code, outs, n', ?_, hemits⟩
  rw [hlen]
  cases func.result <;> rfl

theorem writeParamsToMemory_emits (hM : M.W.Lawful M.p)
    (hresult : ∀ t ∈ func.result, t.Valid) (r : Realloc) {ops : List Nat}
    (hops : ops.length = if func.result.isSome then 1 else 0) (ptr n : Nat) :
    ∃ code n', Emits (some r)
      (writeParamsToMemory M.W func.result.toList ptr default : RGen M.W c Unit) ops n () []
        code n' := by
  have hwrite : ∀ t ∈ func.result.toList, WriteOk M c (some r) t := by
    intro t ht
    exact (lower_and_write hM (hresult t (by simpa using ht)).supported).2
  have hlen : ops.length = func.result.toList.length := by
    rw [hops]
    cases func.result <;> rfl
  obtain ⟨code, n', hemits, -⟩ := writesFields hM hwrite hlen ptr n default
  exact ⟨code, n', hemits⟩

/-- The arguments, in memory or on the stack. -/
theorem importArgs_run (hM : M.W.Lawful M.p) (hparams : ∀ t ∈ func.paramTypes, t.Valid)
    (hsig : ImportSignature M.W func sig) : ∃ code stack n,
    stack.length = (if sig.indirectParams then 1 else flatLength M.W func.paramTypes) ∧
    (if sig.indirectParams then do
        let ptr ← paramsArea M.W .guestImport (M.W.record func.paramTypes)
        lowerToMemory M.W func.paramTypes ptr
      else lowerArgs M.W func.paramTypes : RGen M.W c Unit)
      (state [] [] [] 0 [] none (some .none)) = .ok ((), state stack code [] n [] none (some .none)) := by
  have hdisc : ∀ t ∈ func.paramTypes, Disciplined M.W c t := fun t ht =>
    .of_valid hM (hparams t ht)
  cases hind : sig.indirectParams with
  | true =>
    obtain ⟨code, n', hmem⟩ := lowerToMemory_emits hdisc .none 0 1
    rw [if_pos rfl, if_pos rfl]
    refine ⟨[Code.Stmt.mk (Op.returnPointer (M.W.record func.paramTypes).size
      (M.W.record func.paramTypes).align) [] []] ++ code, [0], n', rfl, ?_⟩
    rw [paramsArea, bind_ok (returnPointer_ok _ _)]
    exact hmem.run _ none
  | false =>
    obtain ⟨code, outs, n', hlen, hlower⟩ := lowerArgs_emits hdisc (hsig.direct hind) .none 0
    rw [if_neg Bool.false_ne_true]
    exact ⟨_, outs, n', hlen, hlower.run [] none⟩

theorem emit_run' {W : WitParser} {inst : Instruction} {ops : List Nat} {k n : Nat}
    {code : List CStmt} {rp : Option Nat} {ra : Option Realloc}
    (hops : ops.length = inst.operandsLen W) (hblocks : inst.blockResults = [])
    (hk : inst.resultsLen W = k) :
    (emit W inst : RGen W c Unit) (state ops code [] n [] rp ra) =
      .ok ((), state (List.range' n k) (code ++ [Code.Stmt.mk (Op.inst inst) ops []]) [] (n + k) [] rp ra) := by
  have hemits : Emits ra (emit W inst : RGen W c Unit) ops n () (List.range' n k)
    [Code.Stmt.mk (Op.inst inst) ops []] (n + k) := Emits.emit hops hblocks hk
  exact hemits.run code rp

/-- What comes back from an import. -/
theorem liftResults_run (hM : M.W.Lawful M.p) (hresult : ∀ t ∈ func.result, t.Valid)
    (hsig : ImportSignature M.W func sig) {stack : List Nat}
    (hstack : stack.length = sig.results.length) (code₀ : List CStmt) (ptr n : Nat) :
    ∃ code outs n', outs.length = (if func.result.isSome then 1 else 0) ∧
      (liftResults M.W func .guestImport sig false : RGen M.W c Unit)
        (state stack code₀ [] n [] (if sig.retptr then some ptr else none) none) =
        .ok ((), state outs (code₀ ++ code) [] n' [] none none) := by
  cases hret : sig.retptr with
  | true =>
    obtain ⟨code, outs, n', hlen, hread⟩ :=
      readResultsFromMemory_emits (c := c) hM hresult none ptr n
    have hflush : ∀ code rp, (emit M.W (.flush (if func.result.isSome then 1 else 0)) :
        RGen M.W c Unit) (state outs code [] n' [] rp none) = _ :=
      fun code rp => emit_run' (k := if func.result.isSome then 1 else 0) hlen rfl rfl
    have hnil : stack = [] := by
      rw [hsig.retptr hret] at hstack
      exact List.eq_nil_of_length_eq_zero hstack
    have htake : (takeReturnPointer : RGen M.W c Nat)
        (state stack code₀ [] n [] (some ptr) none) =
        .ok (ptr, state stack code₀ [] n [] none none) := rfl
    have hempty : (assert sig.results.isEmpty : RGen M.W c Unit) = pure () := by
      rw [hsig.retptr hret]
      rfl
    refine ⟨code ++ [Code.Stmt.mk (Op.inst (.flush (if func.result.isSome then 1 else 0))) outs []],
      List.range' n' (if func.result.isSome then 1 else 0),
      n' + (if func.result.isSome then 1 else 0), List.length_range' .., ?_⟩
    rw [liftResults_retptr hret, hempty, pure_bind, if_pos rfl, bind_ok htake, hnil, bind_ok (hread.run code₀ none), hflush,
      List.append_assoc]
  | false =>
    obtain ⟨hres, hmax⟩ := hsig.results hret
    have hdef : (liftResults M.W func .guestImport sig false : RGen M.W c Unit) =
        func.result.elim (pure ()) (lift M.W) := by
      rw [liftResults, if_neg (by rw [hret]; exact Bool.false_ne_true)]
      cases func.result <;> rfl
    rw [hdef, if_neg Bool.false_ne_true]
    cases hr : func.result with
    | none =>
      rw [hres, hr] at hstack
      obtain rfl : stack = [] := List.eq_nil_of_length_eq_zero hstack
      exact ⟨[], [], n, rfl, by rw [List.append_nil]; rfl⟩
    | some t =>
      rw [hr] at hres
      have hflat : (M.W.pushFlat t).length ≤ maxFlatParams := by
        rw [hres] at hmax
        exact hmax
      obtain ⟨code, y, n', hlift⟩ := (Disciplined.of_valid (c := c) hM
        (hresult t hr)).lift hflat none stack n (by rw [hstack, hres]; rfl)
      exact ⟨code, [y], n', rfl, hlift.run code₀ none⟩

/-- The return pointer, if the signature has one, becomes the last argument. -/
theorem returnArea_run (func : Function) (sig : WasmSignature) (stack : List Nat) (code₀ : List CStmt) (n : Nat) :
    ∃ code extra n', extra.length = (if sig.retptr then 1 else 0) ∧
      (if sig.retptr then do
          let ptr ← returnPointer (M.W.params func.result).size (M.W.params func.result).align
          setReturnPointer (some ptr)
          push ptr
        else pure () : RGen M.W c Unit) (state stack code₀ [] n [] none none) =
        .ok ((), state (stack ++ extra) (code₀ ++ code) [] n' []
          (if sig.retptr then some n else none) none) := by
  cases sig.retptr with
  | true =>
    refine ⟨[Code.Stmt.mk (Op.returnPointer (M.W.params func.result).size
      (M.W.params func.result).align) [] []], [n], n + 1, rfl, ?_⟩
    rw [if_pos rfl, bind_ok (returnPointer_ok _ _), bind_ok (setReturnPointer_ok _), push_ok]
    rfl
  | false =>
    refine ⟨[], [], n, rfl, ?_⟩
    rw [List.append_nil, List.append_nil]
    rfl

/-- An import from its first argument to its `return`. The core function is called once,
with as many operands as its signature has parameters. -/
theorem callLowerArgs_run (hM : M.W.Lawful M.p) (hparams : ∀ t ∈ func.paramTypes, t.Valid)
    (hresult : ∀ t ∈ func.result, t.Valid) (hsig : ImportSignature M.W func sig) :
    ∃ before ops after n, ops.length = sig.params.length ∧
      (callLowerArgs M.W func .guestImport sig .none false : RGen M.W c Unit)
        (state [] [] [] 0 [] none none) =
        .ok ((), state [] (before ++ Code.Stmt.mk (Op.inst (.callWasm func.name sig)) ops [] :: after) [] n []
          none none) := by
  obtain ⟨argsCode, stack, n₁, hlen, hargs⟩ := importArgs_run (c := c) hM hparams hsig
  have hdef : (callLowerArgs M.W func .guestImport sig .none false : RGen M.W c Unit) = (do
      setRealloc (some .none)
      let _ ← (if sig.indirectParams then do
          let ptr ← paramsArea M.W .guestImport (M.W.record func.paramTypes)
          lowerToMemory M.W func.paramTypes ptr
        else lowerArgs M.W func.paramTypes)
      setRealloc none
      let _ ← (if sig.retptr then do
          let ptr ← returnPointer (M.W.params func.result).size (M.W.params func.result).align
          setReturnPointer (some ptr)
          push ptr
        else pure ())
      let _ ← (do
        let len ← stackLen
        assert (decide (len = sig.params.length)))
      emit M.W (.callWasm func.name sig)
      liftResults M.W func .guestImport sig false
      emit M.W (.return_ (if func.result.isSome then 1 else 0) func)) := by
    cases hind : sig.indirectParams <;> cases hret : sig.retptr <;>
      simp [callLowerArgs, hind, hret]
  obtain ⟨areaCode, extra, n₂, hextra, harea⟩ :=
    returnArea_run (M := M) (c := c) func sig stack argsCode n₁
  have hstack : (stack ++ extra).length = sig.params.length := by
    rw [List.length_append, hlen, hextra, hsig.params]
  obtain ⟨liftCode, outs, n₃, houts, hlift⟩ := liftResults_run (c := c) hM hresult hsig
    (show (List.range' n₂ sig.results.length).length = _ from List.length_range' ..)
    (argsCode ++ areaCode ++ [Code.Stmt.mk (Op.inst (.callWasm func.name sig)) (stack ++ extra) []]) n₁
    (n₂ + sig.results.length)
  refine ⟨argsCode ++ areaCode, stack ++ extra, liftCode ++
    [Code.Stmt.mk (Op.inst (.return_ (if func.result.isSome then 1 else 0) func)) outs []], n₃ + 0, hstack, ?_⟩
  have hassert : (stackLen >>= fun len => assert (decide (len = sig.params.length)) :
      RGen M.W c Unit) (state (stack ++ extra) (argsCode ++ areaCode) [] n₂ []
        (if sig.retptr then some n₁ else none) none) =
      .ok ((), state (stack ++ extra) (argsCode ++ areaCode) [] n₂ []
        (if sig.retptr then some n₁ else none) none) := by
    show (assert (decide ((stack ++ extra).length = sig.params.length)) : RGen M.W c Unit) _ = _
    rw [hstack, decide_eq_true rfl]
    rfl
  rw [hdef, bind_ok (setRealloc_ok _), bind_ok hargs, bind_ok (setRealloc_ok _), bind_ok harea,
    bind_ok hassert, bind_ok (emit_run' (k := sig.results.length) hstack rfl rfl), bind_ok hlift,
    emit_run' (k := 0) houts rfl rfl]
  simp [List.append_assoc]

/-! ## Exports -/

theorem exportArgs_emits {W : WitParser} (hparams : ∀ t ∈ func.paramTypes, Disciplined W c t)
    (hdirect : sig.indirectParams = false → flatLength W func.paramTypes ≤ maxFlatParams) :
    ∃ code outs n', outs.length = func.params.length ∧
      Emits none (exportArgs W func sig : RGen W c Unit) [] 0 () outs code n' := by
  have hlen : func.paramTypes.length = func.params.length := by
    rw [Function.paramTypes, List.length_map]
  rw [exportArgs, ← hlen]
  cases hind : sig.indirectParams with
  | true =>
    obtain ⟨code, outs, n', houts, hread⟩ := readParamsFromMemory_emits hparams none 0 1
    have harg : Emits none (emit W (.getArg 0) : RGen W c Unit) [] 0 () [0]
      [Code.Stmt.mk (Op.inst (.getArg 0)) [] []] (0 + 1) := Emits.emit rfl rfl rfl
    exact ⟨_, outs, n', houts, harg.bind hread⟩
  | false => exact liftArgs_emits hparams (hdirect hind) none 0 0

/-- What `freeParams` records. -/
def freeParamsCode (W : WitParser) (func : Function) (sig : WasmSignature) (async_ : Bool)
    (n : Nat) : List CStmt :=
  if sig.indirectParams && !async_ then
    [Code.Stmt.mk (Op.inst (.getArg 0)) [] [], Code.Stmt.mk (Op.inst (.guestDeallocate (W.record func.paramTypes).size
      (W.record func.paramTypes).align)) [n] []]
  else []

theorem freeParams_emits {W : WitParser} (func : Function) (sig : WasmSignature)
    {variant : AbiVariant} (hexport : isExport variant) (async_ : Bool) (ops : List Nat) (n : Nat) : ∃ n',
      Emits none (freeParams W func variant sig async_ : RGen W c Unit) ops n () ops
        (freeParamsCode W func sig async_ n) n' := by
  rw [freeParams, freeParamsCode, hexport, Bool.true_and]
  by_cases hfree : (sig.indirectParams && !async_) = true
  · rw [if_pos hfree, if_pos hfree]
    have harg : Emits none (emit W (.getArg 0) : RGen W c Unit) [] n () [n]
      [Code.Stmt.mk (Op.inst (.getArg 0)) [] []] (n + 1) := Emits.emit rfl rfl rfl
    have hdealloc : Emits none (emit W (.guestDeallocate (W.record func.paramTypes).size
        (W.record func.paramTypes).align) : RGen W c Unit) [n] (n + 1) () []
        [Code.Stmt.mk (Op.inst (.guestDeallocate (W.record func.paramTypes).size
          (W.record func.paramTypes).align)) [n] []] (n + 1 + 0) := Emits.emit rfl rfl rfl
    have hboth := harg.bind (f := fun _ => emit W (.guestDeallocate
      (W.record func.paramTypes).size (W.record func.paramTypes).align)) hdealloc
    have habove := hboth.above ops
    rw [List.append_nil] at habove
    exact ⟨_, habove⟩
  · rw [if_neg hfree, if_neg hfree]
    exact ⟨n, Emits.pure⟩

/-- The results an export hands to its `return` or `task.return`: their core types, or a
pointer. -/
theorem lowerResults_run (sig : WasmSignature) (hM : M.W.Lawful M.p) (hresult : ∀ t ∈ func.result, t.Valid)
    {variant : AbiVariant} (hvariant : variant = .guestExport ∨ variant = .guestExportAsync)
    {toMemory : Bool}
    (hflat : toMemory = false → ((func.result.map M.W.pushFlat).getD []).length ≤ maxFlatParams)
    (r : Realloc) {ops : List Nat} (hops : ops.length = if func.result.isSome then 1 else 0)
    (code₀ : List CStmt) (n : Nat) : ∃ code outs n',
    outs.length = (if toMemory then 1 else ((func.result.map M.W.pushFlat).getD []).length) ∧
      (∀ op ∈ codeOps code, op.Sat (·.lowering)) ∧
      (lowerResults M.W func variant sig toMemory : RGen M.W c Unit)
        (state ops code₀ [] n [] none (some r)) =
        .ok ((), state outs (code₀ ++ code) [] n' [] none (some r)) := by
  cases toMemory with
  | false =>
    rw [lowerResults_flat]
    cases hr : func.result with
    | none =>
      rw [hr] at hops
      obtain rfl : ops = [] := List.eq_nil_of_length_eq_zero hops
      exact ⟨[], [], n, rfl, fun _ hop => (List.not_mem_nil hop).elim, by rw [List.append_nil]; rfl⟩
    | some t =>
      rw [hr] at hops hflat
      obtain ⟨x, rfl⟩ := List.length_eq_one_iff.mp hops
      obtain ⟨code, outs, n', hlen, hlower⟩ := (Disciplined.of_valid (c := c) hM
        (hresult t hr)).lower (hflat rfl) r x n
      exact ⟨code, outs, n', hlen,
        hlower.sat (Keeps.lower_and_write (recorder_stable ..) t fun _ hi _ => hi).1,
        hlower.run code₀ none⟩
  | true =>
    obtain ⟨code, n', hwrite⟩ :=
      writeParamsToMemory_emits (c := c) hM hresult r hops n (n + 1)
    have hkeeps : Steady (fun _ => RecorderState.All (·.lowering)) (fun _ => True)
        (writeParamsToMemory M.W func.result.toList n default : RGen M.W c Unit) := by
      refine Keeps.writeFieldsToMemory (fun m hm => ?_) trivial _
      obtain ⟨t, -, rfl⟩ := List.mem_map.mp hm
      exact (Keeps.lower_and_write (recorder_stable ..) t fun _ hi _ => hi).2
    refine ⟨Code.Stmt.mk (Op.returnPointer (M.W.params func.result).size
      (M.W.params func.result).align) [] [] :: code, [n], n', rfl, ?_, ?_⟩
    · intro op hop
      rw [codeOps, stmtOps, blocksOps] at hop
      rcases List.mem_append.mp hop with hop | hop
      · obtain rfl := List.mem_singleton.mp hop
        trivial
      · exact hwrite.sat hkeeps op hop
    rw [lowerResults_memory hvariant, bind_ok (returnPointer_ok _ _), bind_ok (hwrite.run _ none),
      push_ok]
    simp [List.append_assoc]

/-- The flattened result of an async export, which is written to memory where there are too
many core types. -/
theorem asyncFlatResults_async {W : WitParser} (func : Function) :
    asyncFlatResults W func maxFlatParams true =
      some (if ((func.result.map W.pushFlat).getD []).length ≤ maxFlatParams then
        some ((func.result.map W.pushFlat).getD []) else none) := by
  rw [asyncFlatResults, if_pos rfl]
  cases func.result <;> rfl

/-- From the interface call to the end of an export. -/
theorem callLiftArgs_run (hM : M.W.Lawful M.p) (hresult : ∀ t ∈ func.result, t.Valid)
    {variant : AbiVariant} (hvariant : variant = .guestExport ∨ variant = .guestExportAsync)
    {async_ : Bool} (hsig : async_ = false → ExportSignature M.W func sig) (r : Realloc)
    {argsCode : List CStmt} {ops : List Nat} {n₁ : Nat} (hops : ops.length = func.params.length)
    (hargs : Emits none (exportArgs M.W func sig : RGen M.W c Unit) [] 0 () ops argsCode n₁) :
    ∃ rest n₂, (∀ op ∈ codeOps rest, op.Sat fun i => i.reads = false ∧ i.frees = false) ∧
      (callLiftArgs M.W func variant sig r async_ : RGen M.W c Unit)
        (state [] [] [] 0 [] none none) =
      .ok ((), state [] (argsCode ++ Code.Stmt.mk (Op.inst (.callInterface func async_)) ops [] ::
        (freeParamsCode M.W func sig async_ (n₁ + if func.result.isSome then 1 else 0) ++ rest))
          [] n₂ [] none none) := by
  have hdef : ∀ flatResults toMemory, asyncFlatResults M.W func maxFlatParams async_ = flatResults →
      flatResults.elim sig.retptr Option.isNone = toMemory →
      (callLiftArgs M.W func variant sig r async_ : RGen M.W c Unit) = (do
        let _ ← exportArgs M.W func sig
        emit M.W (.callInterface func async_)
        freeParams M.W func variant sig async_
        setRealloc (some r)
        lowerResults M.W func variant sig toMemory
        returnResults M.W func variant sig flatResults async_
        setRealloc none) := by
    rintro flatResults toMemory hflat rfl
    have hmax : (if variant = .guestImportAsync && async_ then maxFlatAsyncParams
        else maxFlatParams) = maxFlatParams := by
      rcases hvariant with rfl | rfl <;> rfl
    rw [callLiftArgs, hmax, hflat, exportArgs]
    cases sig.indirectParams <;> simp
    all_goals cases flatResults <;> rfl
  have hexport : isExport variant := by rcases hvariant with rfl | rfl <;> rfl
  obtain ⟨n₂, hfree⟩ := freeParams_emits (c := c) (W := M.W) func sig hexport async_
    (List.range' n₁ (if func.result.isSome then 1 else 0))
    (n₁ + if func.result.isSome then 1 else 0)
  -- the end of the run, once it is known what is returned
  have hend : ∀ (flatResults : Option (Option (List WasmType))) (toMemory : Bool)
      (i : Instruction), asyncFlatResults M.W func maxFlatParams async_ = flatResults →
      flatResults.elim sig.retptr Option.isNone = toMemory →
      (toMemory = false → ((func.result.map M.W.pushFlat).getD []).length ≤ maxFlatParams) →
      (returnResults M.W func variant sig flatResults async_ : RGen M.W c Unit) = emit M.W i →
      i.operandsLen M.W =
        (if toMemory then 1 else ((func.result.map M.W.pushFlat).getD []).length) →
      i.blockResults = [] → i.resultsLen M.W = 0 → i.reads = false → i.frees = false →
      ∃ rest n₂, (∀ op ∈ codeOps rest, op.Sat fun i => i.reads = false ∧ i.frees = false) ∧
        (callLiftArgs M.W func variant sig r async_ : RGen M.W c Unit)
          (state [] [] [] 0 [] none none) =
        .ok ((), state [] (argsCode ++ Code.Stmt.mk (Op.inst (.callInterface func async_)) ops [] ::
          (freeParamsCode M.W func sig async_ (n₁ + if func.result.isSome then 1 else 0) ++ rest))
            [] n₂ [] none none) := by
    intro flatResults toMemory i hflat hmem hfits hreturn hi hblocks hres hreads hfrees
    obtain ⟨code, outs, n₃, houts, hops', hlower⟩ := lowerResults_run (c := c) sig hM
      hresult hvariant hfits r
      (show (List.range' n₁ (if func.result.isSome then 1 else 0)).length = _ from
        List.length_range' ..) (argsCode ++
        [Code.Stmt.mk (Op.inst (.callInterface func async_)) ops []] ++
        freeParamsCode M.W func sig async_ (n₁ + if func.result.isSome then 1 else 0)) n₂
    refine ⟨code ++ [Code.Stmt.mk (Op.inst i) outs []], n₃ + 0, ?_, ?_⟩
    · intro op hop
      rw [codeOps_append, codeOps, stmtOps, blocksOps, codeOps, List.append_nil] at hop
      rcases List.mem_append.mp hop with hop | hop
      · have hsat := hops' op hop
        cases op with
        | inst j => exact ⟨Instruction.reads_of_lowering hsat, Instruction.frees_of_lowering hsat⟩
        | returnPointer size align => trivial
      · obtain rfl := List.mem_singleton.mp hop
        exact ⟨hreads, hfrees⟩
    rw [hdef flatResults toMemory hflat hmem, bind_ok (hargs.run [] none), List.nil_append,
      bind_ok (emit_run' (k := if func.result.isSome then 1 else 0) hops rfl rfl),
      bind_ok (hfree.run _ none), bind_ok (setRealloc_ok _), bind_ok hlower, hreturn,
      bind_ok (emit_run' (k := 0) (by rw [houts, hi]) hblocks hres), setRealloc_ok]
    simp [List.append_assoc]
  cases async_ with
  | true =>
    have hflat := asyncFlatResults_async (W := M.W) func
    generalize hX : (if ((func.result.map M.W.pushFlat).getD []).length ≤ maxFlatParams then
      some ((func.result.map M.W.pushFlat).getD []) else none) = flatResult at hflat
    refine hend _ _ (.asyncTaskReturn ("[task-return]" ++ func.name)
      (flatResult.getD [.pointer])) hflat rfl ?_ ?_ ?_ rfl rfl rfl rfl
    · intro hmem
      by_contra hbig
      rw [if_neg hbig] at hX
      subst hX
      cases hmem
    · rcases hvariant with rfl | rfl <;> rfl
    · rw [← hX]
      by_cases hsmall : ((func.result.map M.W.pushFlat).getD []).length ≤ maxFlatParams
      · rw [if_pos hsmall]; rfl
      · rw [if_neg hsmall]; rfl
  | false =>
    have hsig := hsig rfl
    refine hend none sig.retptr (.return_ sig.results.length func) rfl rfl ?_ ?_ ?_ rfl rfl rfl
      rfl
    · intro hret
      rw [← (hsig.results hret).1]
      exact (hsig.results hret).2
    · rcases hvariant with rfl | rfl <;> rfl
    · cases hret : sig.retptr with
      | true => rw [hsig.retptr hret]; rfl
      | false => rw [(hsig.results hret).1]; rfl

end

/-! ## Whole calls -/

/-- How the language generators use `call`: imports are lowered, and exports are lifted
with the signature of a synchronous or of an asynchronous export. -/
inductive Passed : AbiVariant → LiftLower → Bool → Prop
  | imported : Passed .guestImport .lowerArgsLiftResults false
  | exported : Passed .guestExport .liftArgsLowerResults false
  | exportedAsync : Passed .guestExportAsync .liftArgsLowerResults true
  /-- the C# generator keeps the signature of a synchronous export -/
  | exportedTask : Passed .guestExport .liftArgsLowerResults true

/-- The call panics nowhere and ends with an empty operand stack, with every block
finished and taken, having recorded `code`. -/
def Records (W : WitParser) (c : Ty → Bool) (variant : AbiVariant) (liftLower : LiftLower)
    (func : Function) (async_ : Bool) (code : List CStmt) : Prop :=
  ∃ s n, call (B := recorder W c) W variant liftLower func async_
      (RecorderState.new 0) = .ok ((), s) ∧
    s.stack = [] ∧ s.bindgen = ⟨⟨code, [], n⟩, []⟩

section
variable {W : WitParser} {p : Nat} {c : Ty → Bool} {func : Function}

/-- The assertions around the two arms of `call`. -/
theorem Records.of_run {variant : AbiVariant} {liftLower : LiftLower} {async_ : Bool}
    {code : List CStmt} {n : Nat}
    (h : (match liftLower with
        | .lowerArgsLiftResults => callLowerArgs W func variant
            (W.wasmSignature variant func) (callRealloc variant liftLower async_) async_
        | .liftArgsLowerResults => callLiftArgs W func variant
            (W.wasmSignature variant func) (callRealloc variant liftLower async_) async_ :
          RGen W c Unit) (state [] [] [] 0 [] none none) =
        .ok ((), state [] code [] n [] none none)) :
    Records W c variant liftLower func async_ code := by
  refine ⟨state [] code [] n [] none none, n, ?_, rfl, rfl⟩
  cases liftLower with
  | lowerArgsLiftResults =>
    show (assertNoRealloc >>= fun _ => callLowerArgs W func variant
      (W.wasmSignature variant func) (callRealloc variant .lowerArgsLiftResults async_) async_ >>=
        fun _ => assertNoRealloc >>= fun _ => assertEmptyStack)
          (state [] [] [] 0 [] none none) = _
    rw [bind_ok rfl, bind_ok h]
    rfl
  | liftArgsLowerResults =>
    show (assertNoRealloc >>= fun _ => callLiftArgs W func variant
      (W.wasmSignature variant func) (callRealloc variant .liftArgsLowerResults async_) async_ >>=
        fun _ => assertNoRealloc >>= fun _ => assertEmptyStack)
          (state [] [] [] 0 [] none none) = _
    rw [bind_ok rfl, bind_ok h]
    rfl

theorem call_import (hW : W.Lawful p) (hsig : W.Signatures) (hparams : ∀ t ∈ func.paramTypes, t.Valid)
    (hresult : ∀ t ∈ func.result, t.Valid) : ∃ before ops after,
    ops.length = (W.wasmSignature .guestImport func).params.length ∧
      Records W c .guestImport .lowerArgsLiftResults func false (before ++
        Code.Stmt.mk (Op.inst (.callWasm func.name (W.wasmSignature .guestImport func))) ops [] ::
          after) := by
  obtain ⟨before, ops, after, n, hops, hrun⟩ := callLowerArgs_run
    (M := bumpGuest W p) (c := c) hW hparams hresult (hsig.imported func)
  exact ⟨before, ops, after, hops, .of_run hrun⟩

/-- An export records its arguments, the call, and what frees the parameters. -/
theorem call_export {variant : AbiVariant} {async_ : Bool} (hW : W.Lawful p) (hsig : W.Signatures)
    (hpassed : Passed variant .liftArgsLowerResults async_) (hresult : ∀ t ∈ func.result, t.Valid)
    {argsCode : List CStmt} {ops : List Nat} {n₁ : Nat} (hops : ops.length = func.params.length)
    (hargs : Emits none (exportArgs W func (W.wasmSignature variant func) : RGen W c Unit) [] 0 ()
      ops argsCode n₁) : ∃ rest,
    (∀ op ∈ codeOps rest, op.Sat fun i => i.reads = false ∧ i.frees = false) ∧
    Records W c variant .liftArgsLowerResults func async_ (argsCode ++
      Code.Stmt.mk (Op.inst (.callInterface func async_)) ops [] ::
        (freeParamsCode W func (W.wasmSignature variant func) async_
          (n₁ + if func.result.isSome then 1 else 0) ++ rest)) := by
  have hvariant : variant = .guestExport ∨ variant = .guestExportAsync := by
    cases hpassed <;> simp
  have hsync : async_ = false → ExportSignature W func (W.wasmSignature variant func) := by
    intro hsync
    cases hpassed with
    | exported => exact hsig.exported func
    | exportedAsync => cases hsync
    | exportedTask => cases hsync
  obtain ⟨rest, n₂, hrest, hrun⟩ := callLiftArgs_run (M := bumpGuest W p) (c := c) hW hresult
    hvariant hsync (callRealloc variant .liftArgsLowerResults async_) hops hargs
  exact ⟨rest, hrest, .of_run hrun⟩

theorem exported_direct {variant : AbiVariant} {async_ : Bool} (hsig : W.Signatures)
    (hpassed : Passed variant .liftArgsLowerResults async_)
    (hdirect : (W.wasmSignature variant func).indirectParams = false) :
    flatLength W func.paramTypes ≤ maxFlatParams := by
  cases hpassed with
  | exported => exact (hsig.exported func).direct hdirect
  | exportedAsync => exact hsig.exportedAsync func hdirect
  | exportedTask => exact (hsig.exported func).direct hdirect

/-- The stack and block discipline of the generator: every type's emitters keep it, and
every call a language generator asks for ends with an empty stack and no block left. The
core function gets as many operands as its signature has parameters. -/
theorem call_disciplined (hW : W.Lawful p) (hsig : W.Signatures) (c : Ty → Bool) :
    (∀ t : Ty, t.Valid → Disciplined W c t) ∧
    ∀ func : Function, (∀ t ∈ func.paramTypes, t.Valid) → (∀ t ∈ func.result, t.Valid) →
      ∀ variant liftLower async_, Passed variant liftLower async_ →
        ∃ code, Records W c variant liftLower func async_ code ∧
          (liftLower = .lowerArgsLiftResults → ∃ ops,
            Code.Stmt.mk (Op.inst (.callWasm func.name (W.wasmSignature variant func))) ops [] ∈ code ∧
              ops.length = (W.wasmSignature variant func).params.length) := by
  have hdisc : ∀ t : Ty, t.Valid → Disciplined W c t := fun t ht =>
    .of_valid (M := bumpGuest W p) hW ht
  refine ⟨hdisc, ?_⟩
  intro func hparams hresult variant liftLower async_ hpassed
  cases liftLower with
  | lowerArgsLiftResults =>
    cases hpassed
    obtain ⟨before, ops, after, hops, hrun⟩ := call_import (c := c) hW hsig hparams hresult
    exact ⟨_, hrun, fun _ => ⟨ops, by simp, hops⟩⟩
  | liftArgsLowerResults =>
    obtain ⟨argsCode, ops, n₁, hops, hargs⟩ :=
      exportArgs_emits (fun t ht => hdisc t (hparams t ht)) (exported_direct hsig hpassed)
    obtain ⟨rest, -, hrun⟩ := call_export hW hsig hpassed hresult hops hargs
    exact ⟨_, hrun, nofun⟩

/-- An import that takes strings and may give a number. -/
theorem call_disciplined_strings :
    ∃ code, Records .canonical (fun _ => false) .guestImport .lowerArgsLiftResults
        ⟨"lookup", .freestanding, [("keys", .list 0 .string)], some (.option 1 (.prim .u32))⟩ false
        code ∧
      (LiftLower.lowerArgsLiftResults = .lowerArgsLiftResults → ∃ ops,
        Code.Stmt.mk (Op.inst (.callWasm "lookup" (wasmSignature .guestImport
          ⟨"lookup", .freestanding, [("keys", .list 0 .string)],
            some (.option 1 (.prim .u32))⟩))) ops [] ∈ code ∧
        ops.length = (wasmSignature .guestImport ⟨"lookup", .freestanding,
          [("keys", .list 0 .string)], some (.option 1 (.prim .u32))⟩).params.length) := by
  refine (call_disciplined canonical_lawful canonical_signatures fun _ => false).2
    ⟨"lookup", .freestanding, [("keys", .list 0 .string)], some (.option 1 (.prim .u32))⟩
    ?_ ?_ _ _ _ .imported
  · intro t ht
    obtain rfl : t = .list 0 .string := by simpa [Function.paramTypes] using ht
    exact .list .string
  · intro t ht
    obtain rfl : .option 1 (.prim .u32) = t := by simpa using ht
    refine .arms rfl (by decide) (by decide) fun u hu => ?_
    obtain rfl : u = .prim .u32 := by simpa using hu
    exact .prim .u32

end

end WitBindgen
