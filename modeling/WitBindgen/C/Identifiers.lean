import WitBindgen.C.NameWords
import WitBindgen.Wit.Canonical
import WitBindgen.Library.Outcome
import Mathlib.Data.List.Nodup

/-!
# Identifiers of a C function

`print_sig`, `import_body_sync`, `import_body_async` and `export`, as far as names go. The
identifiers of a signature are user names, which `to_c_ident` spells, user names behind
`maybe_`, and names of its own such as `ret` and `result`. The body declares temporaries,
for which `Ns::tmp` of the function's `locals` looks for a free name, and a few names of
its own; only some of all these are registered in `locals`.

What the temporaries are needed for is left open: a body asks for any of the names that
`FunctionBindgen` passes to `Ns::tmp`, in any order. The pointer `base` of a loop is declared
in a block of its own, and is not among them.
-/

namespace WitBindgen.C.Identifiers

/-- What `to_c_ident` escapes: the keywords of C and C++, and names that the generated code uses. -/
def reserved : List String :=
  ["alignas", "alignof", "and", "and_eq", "asm", "atomic_cancel", "atomic_commit",
   "atomic_noexcept", "auto", "bitand", "bitor", "bool", "break", "case", "catch", "char",
   "char8_t", "char16_t", "char32_t", "class", "compl", "concept", "const", "consteval",
   "constexpr", "constinit", "const_cast", "continue", "co_await", "co_return", "co_yield",
   "decltype", "default", "delete", "do", "double", "dynamic_cast", "else", "enum", "explicit",
   "export", "extern", "false", "float", "for", "friend", "goto", "if", "inline", "int", "long",
   "mutable", "namespace", "new", "noexcept", "not", "not_eq", "nullptr", "operator", "or",
   "or_eq", "private", "protected", "public", "reflexpr", "register", "reinterpret_cast",
   "requires", "return", "short", "signed", "sizeof", "static", "static_assert", "static_cast",
   "struct", "switch", "synchronized", "template", "this", "thread_local", "throw", "true", "try",
   "typedef", "typeid", "typename", "union", "unsigned", "using", "virtual", "void", "volatile",
   "wchar_t", "while", "xor", "xor_eq", "_Packed", "ret", "err", "stdin", "stdout", "stderr"]

def toCIdent (name : String) : String := if name ∈ reserved then name ++ "_" else toSnakeCase name

inductive Panic where
  | todo
  | unreachable
  /-- `Ns::insert` failed. -/
  | defined (name : String)
deriving DecidableEq

structure Options where
  inImport : Bool
  async_ : Bool
  noSigFlattening : Bool

def Options.variant (o : Options) : AbiVariant :=
  match o.inImport, o.async_ with
  | true, false => .guestImport
  | true, true => .guestImportAsync
  | false, false => .guestExport
  | false, true => .guestExportAsync

/-! ## Signatures -/

inductive Scalar where
  | void
  | optionBool (ty : Ty)
  | resultBool (ok err : Option Ty)
  | type (ty : Ty)

structure Return where
  scalar : Option Scalar
  retptrs : List Ty

/-- `Return::return_single`. -/
def returnSingle (origTy : Ty) (sigFlattening : Bool) : Ty → Except Panic Return
  | .type _ t => returnSingle origTy sigFlattening t
  | .string => .ok ⟨none, [origTy]⟩
  | .errorContext => .error .todo
  | .prim _ | .flags .. | .enum .. | .handle .. | .future .. | .stream .. => .ok ⟨some (.type origTy), []⟩
  | .option _ ty =>
    if sigFlattening then .ok ⟨some (.optionBool ty), [ty]⟩ else .ok ⟨none, [origTy]⟩
  | .result _ ok err =>
    if sigFlattening then .ok ⟨some (.resultBool ok err), ok.toList ++ err.toList⟩ else .ok ⟨none, [origTy]⟩
  | .tuple .. | .record .. | .list .. | .map .. | .variant .. => .ok ⟨none, [origTy]⟩
  | .resource _ | .fixedLengthList .. => .error .todo
  | .unknown _ => .error .unreachable

def classifyRet (o : Options) (func : Function) : Except Panic Return :=
  match func.result with
  | none => .ok ⟨some .void, []⟩
  | some ty => returnSingle ty (!o.noSigFlattening) ty

def isArgByPointer : Ty → Except Panic Bool
  | .type _ t => isArgByPointer t
  | .string | .variant .. | .option .. | .result .. | .tuple .. | .record .. | .list .. | .map .. => .ok true
  | .prim _ | .errorContext | .enum .. | .flags .. | .handle .. | .future .. | .stream .. => .ok false
  | .resource _ | .fixedLengthList .. => .error .todo
  | .unknown _ => .error .unreachable

/-- The names of the return pointers. -/
def retptrNames (ret : Return) : List String :=
  match ret.scalar with
  | some (.resultBool ok _) => ret.retptrs.mapIdx fun i _ => if i = 0 ∧ ok.isSome then "ret" else "err"
  | _ => if ret.retptrs.length = 1 then ["ret"] else ret.retptrs.mapIdx fun i _ => "ret" ++ toString i

/-- An option whose parameter is a pointer to its payload. -/
def flattened (o : Options) (param : String × Ty) : Bool :=
  !o.noSigFlattening && match param.2 with
    | .option _ _ => true
    | _ => false

def printName (o : Options) (param : String × Ty) : String :=
  if flattened o param then "maybe_" ++ toCIdent param.1 else toCIdent param.1

/-- `idents` is what the brackets of the signature name; a parameter is by pointer or not. -/
structure CSig where
  idents : List String
  params : List (Bool × String)
  ret : Return
  retptrs : List String

def printSigParams (o : Options) (func : Function) : Except Panic (List (Bool × String)) :=
  func.params.mapM fun param => do
    let pointer ← isArgByPointer param.2
    return (!flattened o param && pointer, toCIdent param.1)

def printSigAsyncImportParams (func : Function) (sig : WasmSignature) : List (Bool × String) :=
  (if sig.indirectParams then
    match func.params with
    | [] => []
    | [_] => [(true, "arg")]
    | _ => [(true, "args")]
  else func.params.map fun param => (false, toCIdent param.1)) ++
  if func.result.isSome then [(true, "result")] else []

def printSig (o : Options) (func : Function) (sig : WasmSignature) : Except Panic CSig := do
  let ret ← if o.async_ && !o.inImport then .ok ⟨func.result.map .type, []⟩ else classifyRet o func
  if o.async_ && o.inImport then
    let params := printSigAsyncImportParams func sig
    return ⟨params.map (·.2), params, ret, []⟩
  else do
    let params ← printSigParams o func
    let retptrs := if o.async_ then [] else retptrNames ret
    return ⟨func.params.map (printName o) ++ retptrs, params, ret, retptrs⟩

/-! ## Bodies -/

/-- What is passed to `Ns::tmp`. -/
def tempNames : List String :=
  ["arg", "borrow", "err", "flags", "i", "len", "ok", "option", "payload", "ptr", "result", "ret", "val",
   "variant"]

abbrev Temp := { name : String // name ∈ tempNames }

/-- The temporaries of a function: those before the call of an exported `async` function and
those after it, and those of the post-return function if there is one. -/
structure Body where
  before : List Temp
  after : List Temp
  post : Option (List Temp)

/-- The parameters of a C function, and what is declared in its body. -/
structure Scope where
  params : List String
  locals : List String

def Scope.Distinct (s : Scope) : Prop := (s.params ++ s.locals).Nodup

/-- `locals.insert(name).unwrap()` -/
def insertLocal (ns : Ns) (name : String) : Except Panic Ns :=
  match ns.insert name with
  | .ok ns => .ok ns
  | .error _ => .error (.defined name)

/-- `FunctionBindgen::new`. -/
def newLocals (params : List String) : Except Panic Ns := params.foldlM insertLocal Ns.empty

def tmps (ns : Ns) : List Temp → List String × Ns
  | [] => ([], ns)
  | t :: ts =>
    let (name, ns) := ns.tmpName t.1
    let (names, ns) := tmps ns ts
    (name :: names, ns)

/-- `import_body_sync`. The return area is declared where `return_pointer` was called: for
arguments or results in memory. -/
def importBodySync (o : Options) (func : Function) (sig : WasmSignature) (cSig : CSig) (body : Body) :
    Except Panic (List Scope) := do
  let optionalAdapters := (func.params.filter (flattened o)).map fun param => toCIdent param.1
  let locals ← newLocals (cSig.params.map (·.2))
  let locals ← cSig.retptrs.foldlM insertLocal locals
  let retArea := if sig.indirectParams || sig.retptr then ["ret_area"] else []
  return [⟨cSig.idents, optionalAdapters ++ retArea ++ (tmps locals body.before).1⟩]

def importBodyAsync (sig : WasmSignature) (cSig : CSig) (body : Body) : Except Panic (List Scope) :=
  if sig.indirectParams then return [⟨cSig.idents, []⟩]
  else do
    let locals ← newLocals (cSig.params.map (·.2))
    return [⟨cSig.idents, (tmps locals body.before).1⟩]

/-- The function that post-return calls, with a parameter for each result. -/
def postReturn (sig : WasmSignature) : Option (List Temp) → Except Panic (List Scope)
  | none => .ok []
  | some temps => do
      let params := sig.results.mapIdx fun i _ => "arg" ++ toString i
      let locals ← newLocals params
      return [⟨params, (tmps locals temps).1⟩]

/-- `export`: the signature is that of the function which the user writes. The generated one
calls it; what an `async` function does after the call is the body of another one. -/
def export_ (o : Options) (func : Function) (sig : WasmSignature) (cSig : CSig) (body : Body) :
    Except Panic (List Scope) := do
  let locals ← newLocals (cSig.params.map (·.2))
  let (params, locals) := tmps locals (List.replicate sig.params.length ⟨"arg", by decide⟩)
  let (before, locals) := tmps locals body.before
  if o.async_ then
    let (ret, locals) := locals.tmpName "ret"
    return [⟨cSig.idents, []⟩, ⟨params, before ++ [ret]⟩,
      ⟨if func.result.isSome then ["ret"] else [], (tmps locals body.after).1⟩]
  else do
    let post ← postReturn sig body.post
    return ⟨cSig.idents, []⟩ :: ⟨params, before⟩ :: post

/-- What is generated for a function. -/
def generate (W : WitParser) (o : Options) (func : Function) (body : Body) : Except Panic (List Scope) := do
  let sig := W.wasmSignature o.variant func
  let cSig ← printSig o func sig
  if !o.inImport then export_ o func sig cSig body
  else if o.async_ then importBodyAsync sig cSig body
  else importBodySync o func sig cSig body

/-- No identifier is declared twice, and none is inserted twice. What the generator does not
support has no identifiers. -/
def Hygienic : Except Panic (List Scope) → Prop
  | .ok scopes => ∀ s ∈ scopes, s.Distinct
  | .error (.defined _) => False
  | .error _ => True

/-- The signatures that the generator supports. -/
structure Supported (o : Options) (func : Function) : Prop where
  result : ¬(o.inImport = false ∧ o.async_ = true) → ∃ ret, classifyRet o func = .ok ret
  params : ¬(o.inImport = true ∧ o.async_ = true) → ∀ param ∈ func.params, ∃ b, isArgByPointer param.2 = .ok b

def idents (func : Function) : List String := func.params.map fun param => toCIdent param.1

/-- The identifier of a parameter is declared as it is: an import declares that of a
flattened option in its body. -/
def Shown (o : Options) (param : String × Ty) : Prop := o.inImport = true ∨ flattened o param = false

/-- The condition on the names of the parameters. -/
structure Apart (o : Options) (func : Function) (sig : WasmSignature) : Prop where
  params : ¬(o.inImport = true ∧ o.async_ = true ∧ sig.indirectParams = true) → (idents func).Nodup
  ret : o.async_ = false → ∀ ret, classifyRet o func = .ok ret →
    ∀ param ∈ func.params, Shown o param → toCIdent param.1 ∉ retptrNames ret
  maybe : ¬(o.inImport = true ∧ o.async_ = true) → ∀ param ∈ func.params, flattened o param = true →
    ∀ other ∈ func.params, Shown o other → toCIdent other.1 ≠ "maybe_" ++ toCIdent param.1
  area : o.inImport = true → o.async_ = false → sig.indirectParams = true ∨ sig.retptr = true →
    ∀ param ∈ func.params, toCIdent param.1 ≠ "ret_area"
  result : o.inImport = true → o.async_ = true → sig.indirectParams = false → func.result.isSome = true →
    ∀ param ∈ func.params, toCIdent param.1 ≠ "result"

/-! ## Inserted names -/

/-- Names can be inserted as far as they are distinct and new. -/
theorem insert_ends (ns : Ns) (names : List String) :
    Ends (fun e => (∃ name, e = .defined name) ∧ ¬(names.Nodup ∧ ∀ x ∈ names, x ∉ ns.defined))
      (fun ns' => (names.Nodup ∧ ∀ x ∈ names, x ∉ ns.defined) ∧ ∀ x, x ∈ ns'.defined ↔ x ∈ names ∨ x ∈ ns.defined)
      (names.foldlM insertLocal ns) := by
  induction names generalizing ns with
  | nil => exact ⟨⟨List.nodup_nil, nofun⟩, fun x => ⟨Or.inr, fun h => h.resolve_left nofun⟩⟩
  | cons name rest ih =>
    rw [List.foldlM_cons]
    by_cases hname : name ∈ ns.defined
    · have hinsert : insertLocal ns name = .error (.defined name) := by
        rw [insertLocal, Ns.insert, if_pos hname]
      rw [hinsert]
      exact ⟨⟨name, rfl⟩, fun h => h.2 name List.mem_cons_self hname⟩
    · have hinsert : insertLocal ns name = .ok { ns with defined := name :: ns.defined } := by
        rw [insertLocal, Ns.insert, if_neg hname]
      rw [hinsert]
      have hiff : (name :: rest).Nodup ∧ (∀ x ∈ name :: rest, x ∉ ns.defined) ↔
          rest.Nodup ∧ ∀ x ∈ rest, x ∉ name :: ns.defined := by
        simp only [List.nodup_cons, List.mem_cons, forall_eq_or_imp, not_or]
        constructor
        · rintro ⟨⟨hnot, hnodup⟩, -, hnew⟩
          exact ⟨hnodup, fun x hx => ⟨fun h => hnot (h ▸ hx), hnew x hx⟩⟩
        · rintro ⟨hnodup, hnew⟩
          exact ⟨⟨fun hx => (hnew name hx).1 rfl, hnodup⟩, hname, fun x hx => (hnew x hx).2⟩
      rw [hiff]
      refine (ih { ns with defined := name :: ns.defined }).mono fun ns' h => ⟨h.1, fun x => ?_⟩
      rw [h.2 x, List.mem_cons, List.mem_cons, or_left_comm, or_assoc]

theorem newLocals_ends (names : List String) :
    Ends (fun e => (∃ name, e = .defined name) ∧ ¬names.Nodup)
      (fun ns => names.Nodup ∧ ∀ x, x ∈ ns.defined ↔ x ∈ names) (newLocals names) := by
  refine ((insert_ends Ns.empty names).mono_error ?_).mono ?_
  · rintro e ⟨he, hnot⟩
    exact ⟨he, fun h => hnot ⟨h, fun _ _ => List.not_mem_nil⟩⟩
  · rintro ns ⟨h, hmem⟩
    exact ⟨h.1, fun x => (hmem x).trans (or_iff_left List.not_mem_nil)⟩

/-! ## Temporaries -/

theorem search_shape (ns : Ns) (name : String) (n : Nat) (ret : String) (k : Nat) :
    (ns.search name n ret k).1 = ret ∨ ∃ i, (ns.search name n ret k).1 = name ++ toString (i : Nat) := by
  induction n generalizing ret k with
  | zero => exact Or.inl rfl
  | succ n ih =>
    rw [Ns.search]
    split
    · rcases ih (name ++ toString k) (k + 1) with h | h
      · exact Or.inr ⟨k, h⟩
      · exact Or.inr h
    · exact Or.inl rfl

/-- Afterwards a name is taken, whether it was so already or not. -/
theorem mem_tmpName (ns : Ns) (name : String) : name ∈ (ns.tmpName name).2.defined := by
  by_cases hname : name ∈ ns.defined
  · exact List.mem_cons_of_mem _ hname
  · have hfound : (ns.tmpName name).1 = name := by
      rw [Ns.tmpName, Ns.search, if_neg hname]
    exact List.mem_cons.mpr (Or.inl hfound.symm)

/-- A temporary has no underscore in its name. -/
theorem temp_clean (ns : Ns) (t : Temp) : '_' ∉ (ns.tmpName t.1).1.toList := by
  have hbase : ∀ name ∈ tempNames, '_' ∉ name.toList := by decide +kernel
  have ht := hbase t.1 t.2
  rcases search_shape ns t.1 (ns.defined.length + 1) t.1 ns.tmp with h | ⟨i, h⟩
  · rw [Ns.tmpName, h]
    exact ht
  · rw [Ns.tmpName, h, String.toList_append, List.mem_append, not_or]
    refine ⟨ht, fun hdigit => ?_⟩
    rw [Nat.toString_eq_ofList_toDigits, String.toList_ofList] at hdigit
    exact Nat.underscore_not_in_toDigits hdigit

theorem tmps_fresh (ns : Ns) (ts : List Temp) :
    (tmps ns ts).1.Nodup ∧ (∀ x ∈ (tmps ns ts).1, x ∉ ns.defined ∧ '_' ∉ x.toList) ∧
      ∀ x, x ∈ (tmps ns ts).2.defined ↔ x ∈ (tmps ns ts).1 ∨ x ∈ ns.defined := by
  induction ts generalizing ns with
  | nil => exact ⟨List.nodup_nil, nofun, fun x => ⟨Or.inr, fun h => h.resolve_left nofun⟩⟩
  | cons t ts ih =>
    obtain ⟨hnodup, hnew, hmem⟩ := ih (ns.tmpName t.1).2
    have hdefined : (ns.tmpName t.1).2.defined = (ns.tmpName t.1).1 :: ns.defined := rfl
    rw [hdefined] at hnew hmem
    show ((ns.tmpName t.1).1 :: (tmps (ns.tmpName t.1).2 ts).1).Nodup ∧
      (∀ x ∈ (ns.tmpName t.1).1 :: (tmps (ns.tmpName t.1).2 ts).1, _) ∧
      ∀ x, x ∈ (tmps (ns.tmpName t.1).2 ts).2.defined ↔ x ∈ (ns.tmpName t.1).1 :: (tmps (ns.tmpName t.1).2 ts).1 ∨ _
    refine ⟨List.nodup_cons.mpr ⟨fun h => (hnew _ h).1 List.mem_cons_self, hnodup⟩, fun x hx => ?_, fun x => ?_⟩
    · rcases List.mem_cons.mp hx with rfl | hx
      · exact ⟨tmpName_fresh ns t.1, temp_clean ns t⟩
      · exact ⟨fun h => (hnew x hx).1 (List.mem_cons_of_mem _ h), (hnew x hx).2⟩
    · rw [hmem x, List.mem_cons, List.mem_cons, or_left_comm, or_assoc]

/-! ## Names of a signature -/

/-- A flattened result has a pointer for each payload; other than that there is at most one. -/
theorem returnSingle_ends (origTy : Ty) (sigFlattening : Bool) (ty : Ty) :
    Ends (fun e => ∀ name, e ≠ .defined name)
      (fun ret => (∃ ok err, ret = ⟨some (.resultBool ok err), ok.toList ++ err.toList⟩) ∨
        (∀ ok err, ret.scalar ≠ some (.resultBool ok err)) ∧ ret.retptrs.length ≤ 1)
      (returnSingle origTy sigFlattening ty) := by
  fun_induction returnSingle origTy sigFlattening ty with
  | case1 id t ih => exact ih
  | case3 | case19 | case20 | case21 => exact nofun
  | case12 id ok err hflat => exact Or.inl ⟨ok, err, rfl⟩
  | case2 | case10 | case11 | case13 | case14 | case15 | case16 | case17 | case18 =>
    exact Or.inr ⟨nofun, Nat.le_refl 1⟩
  | case4 | case5 | case6 | case7 | case8 | case9 => exact Or.inr ⟨nofun, Nat.zero_le 1⟩

theorem classifyRet_ends (o : Options) (func : Function) :
    Ends (fun e => ∀ name, e ≠ .defined name)
      (fun ret => (retptrNames ret).Nodup ∧ ∀ x ∈ retptrNames ret, x = "ret" ∨ x = "err") (classifyRet o func) := by
  rw [classifyRet]
  split
  · exact ⟨List.nodup_nil, by intros; contradiction⟩
  · rename_i ty _
    refine (returnSingle_ends ty (!o.noSigFlattening) ty).mono fun ret h => ?_
    rcases h with ⟨ok, err, rfl⟩ | ⟨hscalar, hlength⟩
    · rcases ok with _ | ok <;> rcases err with _ | err
      · exact ⟨List.nodup_nil, by intros; contradiction⟩
      · exact ⟨List.nodup_singleton _, fun x hx => Or.inr (List.mem_singleton.mp hx)⟩
      · exact ⟨List.nodup_singleton _, fun x hx => Or.inl (List.mem_singleton.mp hx)⟩
      · show ["ret", "err"].Nodup ∧ ∀ x ∈ ["ret", "err"], x = "ret" ∨ x = "err"
        exact ⟨by decide, by simp⟩
    · obtain ⟨scalar, retptrs⟩ := ret
      have hnames : retptrNames ⟨scalar, retptrs⟩ =
          if retptrs.length = 1 then ["ret"] else retptrs.mapIdx fun i _ => "ret" ++ toString i := by
        rw [retptrNames]
        split
        · exact absurd ‹_› (hscalar _ _)
        · rfl
      rw [hnames]
      rcases retptrs with _ | ⟨ty, _ | ⟨_, _⟩⟩
      · exact ⟨List.nodup_nil, by simp⟩
      · exact ⟨List.nodup_singleton _, fun x hx => Or.inl (List.mem_singleton.mp hx)⟩
      · exact absurd hlength (by simp)

theorem isArgByPointer_ends (ty : Ty) :
    Ends (fun e => ∀ name, e ≠ .defined name) (fun _ => True) (isArgByPointer ty) := by
  fun_induction isArgByPointer ty with
  | case1 id t ih => exact ih
  | case17 | case18 | case19 => exact nofun
  | _ => trivial

theorem printSigParams_ends (o : Options) (func : Function) :
    Ends (fun e => (∀ name, e ≠ .defined name) ∧ ¬∀ param ∈ func.params, ∃ b, isArgByPointer param.2 = .ok b)
      (fun params => (∀ param ∈ func.params, ∃ b, isArgByPointer param.2 = .ok b) ∧ params.map (·.2) = idents func)
      (printSigParams o func) := by
  rw [printSigParams, idents]
  induction func.params with
  | nil => exact ⟨nofun, rfl⟩
  | cons param rest ih =>
    rw [List.mapM_cons]
    cases hpointer : isArgByPointer param.2 with
    | error e =>
      refine ⟨(isArgByPointer_ends param.2).of_error hpointer, fun h => ?_⟩
      obtain ⟨b, hb⟩ := h param List.mem_cons_self
      exact nomatch hpointer.symm.trans hb
    | ok b =>
      show Ends _ _ (rest.mapM _ >>= fun params => pure ((!flattened o param && b, toCIdent param.1) :: params))
      refine Ends.bind (ih.mono_error fun e he => ?_) ?_
      · exact ⟨he.1, fun h => he.2 fun p hp => h p (List.mem_cons_of_mem _ hp)⟩
      rintro params ⟨hrest, hparams⟩
      exact ⟨List.forall_mem_cons.mpr ⟨⟨b, hpointer⟩, hrest⟩, congrArg (toCIdent param.1 :: ·) hparams⟩

/-- What every signature consists of except that of an `async` import. -/
structure Printed (o : Options) (func : Function) (cSig : CSig) : Prop where
  params : cSig.params.map (·.2) = idents func
  idents : cSig.idents = func.params.map (printName o) ++ cSig.retptrs
  nodup : cSig.retptrs.Nodup
  fixed : ∀ x ∈ cSig.retptrs, x = "ret" ∨ x = "err"
  retptrs : ∀ x, x ∈ cSig.retptrs ↔ o.async_ = false ∧ ∃ ret, classifyRet o func = .ok ret ∧ x ∈ retptrNames ret

theorem printSig_async_import (o : Options) (func : Function) (sig : WasmSignature) (himport : o.inImport = true)
    (hasync : o.async_ = true) :
    Ends (fun e => (∀ name, e ≠ .defined name) ∧ ¬Supported o func)
      (fun cSig => Supported o func ∧ cSig.params = printSigAsyncImportParams func sig ∧
        cSig.idents = (printSigAsyncImportParams func sig).map (·.2)) (printSig o func sig) := by
  simp only [printSig, himport, hasync, Bool.not_true, Bool.and_false, Bool.false_eq_true, if_false, Bool.and_self,
    if_true]
  cases hret : classifyRet o func with
  | error e =>
    refine ⟨(classifyRet_ends o func).of_error hret, fun h => ?_⟩
    obtain ⟨ret, hok⟩ := h.result fun hf => nomatch himport.symm.trans hf.1
    exact nomatch hret.symm.trans hok
  | ok ret => exact ⟨⟨fun _ => ⟨ret, hret⟩, fun h => absurd ⟨himport, hasync⟩ h⟩, rfl, rfl⟩

theorem printSig_printed (o : Options) (func : Function) (sig : WasmSignature)
    (hkind : ¬(o.inImport = true ∧ o.async_ = true)) :
    Ends (fun e => (∀ name, e ≠ .defined name) ∧ ¬Supported o func)
      (fun cSig => Supported o func ∧ Printed o func cSig) (printSig o func sig) := by
  have hkind' : ¬(o.async_ && o.inImport) = true := fun h => hkind ((Bool.and_eq_true _ _).mp h).symm
  by_cases hasync : o.async_ = true
  · have himport : o.inImport = false := Bool.eq_false_iff.mpr fun h => hkind ⟨h, hasync⟩
    simp only [printSig, himport, hasync, Bool.not_false, Bool.and_self, if_true, Bool.and_false, Bool.false_eq_true,
      if_false]
    show Ends _ _ (do let params ← printSigParams o func; _)
    refine Ends.bind ((printSigParams_ends o func).mono_error fun e he => ⟨he.1, fun h => he.2 (h.params hkind)⟩) ?_
    rintro params ⟨hpointer, hparams⟩
    exact ⟨⟨fun h => absurd ⟨himport, hasync⟩ h, fun _ => hpointer⟩, hparams, rfl, List.nodup_nil, nofun,
      fun x => ⟨nofun, fun h => nomatch hasync.symm.trans h.1⟩⟩
  · have hsync : o.async_ = false := Bool.eq_false_iff.mpr hasync
    simp only [printSig, hsync, Bool.false_and, Bool.false_eq_true, if_false]
    cases hret : classifyRet o func with
    | error e =>
      refine ⟨(classifyRet_ends o func).of_error hret, fun h => ?_⟩
      obtain ⟨ret, hok⟩ := h.result fun hf => hasync hf.2
      exact nomatch hret.symm.trans hok
    | ok ret =>
      have hnames := (classifyRet_ends o func).of_ok hret
      show Ends _ _ (do let params ← printSigParams o func; _)
      refine Ends.bind ((printSigParams_ends o func).mono_error fun e he => ⟨he.1, fun h => he.2 (h.params hkind)⟩) ?_
      rintro params ⟨hpointer, hparams⟩
      refine ⟨⟨fun _ => ⟨ret, hret⟩, fun _ => hpointer⟩, hparams, rfl, hnames.1, hnames.2, fun x => ?_⟩
      constructor
      · exact fun h => ⟨hsync, ret, hret, h⟩
      · rintro ⟨-, ret', hret', h⟩
        rwa [← Except.ok.inj (hret.symm.trans hret')] at h

/-! ## Clashes -/

theorem printName_flattened {o : Options} {param : String × Ty} (h : flattened o param = true) :
    printName o param = "maybe_" ++ toCIdent param.1 := if_pos h

theorem printName_plain {o : Options} {param : String × Ty} (h : flattened o param = false) :
    printName o param = toCIdent param.1 := if_neg (ne_true_of_eq_false h)

theorem maybe_chars (ident : String) :
    ("maybe_" ++ ident).toList = ['m', 'a', 'y', 'b', 'e', '_'] ++ ident.toList := by
  rw [String.toList_append, show "maybe_".toList = ['m', 'a', 'y', 'b', 'e', '_'] by decide +kernel]

theorem maybe_inj {a b : String} (h : "maybe_" ++ a = "maybe_" ++ b) : a = b := by
  have hchars := congrArg String.toList h
  rw [maybe_chars, maybe_chars] at hchars
  exact String.toList_inj.mp (List.append_cancel_left hchars)

theorem maybe_underscore (ident : String) : '_' ∈ ("maybe_" ++ ident).toList := by
  rw [maybe_chars]
  exact List.mem_append_left _ (by decide)

theorem maybe_ne_area (ident : String) : "maybe_" ++ ident ≠ "ret_area" := by
  intro h
  have hhead : "ret_area".toList.head? = some 'm' := by
    rw [← h, maybe_chars]
    rfl
  exact absurd hhead (by decide +kernel)

variable {o : Options} {func : Function} {sig : WasmSignature} {cSig : CSig}

namespace Printed

theorem clean (hp : Printed o func cSig) {x : String} (hx : x ∈ cSig.retptrs) : '_' ∉ x.toList := by
  rcases hp.fixed x hx with rfl | rfl <;> decide +kernel

/-- The names of the signature are distinct where no pointer has the name of a parameter
and no parameter that of a flattened option. -/
theorem nodup_of (hp : Printed o func cSig) (hnodup : (Identifiers.idents func).Nodup)
    (hret : ∀ param ∈ func.params, flattened o param = false → toCIdent param.1 ∉ cSig.retptrs)
    (hmaybe : ∀ param ∈ func.params, flattened o param = true → ∀ other ∈ func.params, flattened o other = false →
      toCIdent other.1 ≠ "maybe_" ++ toCIdent param.1) : cSig.idents.Nodup := by
  rw [hp.idents]
  refine List.nodup_append.mpr ⟨?_, hp.nodup, ?_⟩
  · refine List.Nodup.map_on (fun param hparam other hother heq => ?_) (List.Nodup.of_map _ hnodup)
    refine List.inj_on_of_nodup_map hnodup hparam hother ?_
    cases hf : flattened o param <;> cases hf' : flattened o other
    · rwa [printName_plain hf, printName_plain hf'] at heq
    · rw [printName_plain hf, printName_flattened hf'] at heq
      exact absurd heq (hmaybe other hother hf' param hparam hf)
    · rw [printName_flattened hf, printName_plain hf'] at heq
      exact absurd heq.symm (hmaybe param hparam hf other hother hf')
    · rw [printName_flattened hf, printName_flattened hf'] at heq
      exact maybe_inj heq
  · rintro _ hname x hx rfl
    obtain ⟨param, hparam, rfl⟩ := List.mem_map.mp hname
    cases hf : flattened o param
    · rw [printName_plain hf] at hx
      exact hret param hparam hf hx
    · rw [printName_flattened hf] at hx
      exact hp.clean hx (maybe_underscore _)

theorem ret_of_nodup (hp : Printed o func cSig) (hnodup : cSig.idents.Nodup) :
    ∀ param ∈ func.params, flattened o param = false → toCIdent param.1 ∉ cSig.retptrs := by
  intro param hparam hf hx
  rw [hp.idents] at hnodup
  refine (List.nodup_append.mp hnodup).2.2 (printName o param) (List.mem_map_of_mem hparam) (toCIdent param.1) hx ?_
  exact printName_plain hf

theorem maybe_of_nodup (hp : Printed o func cSig) (hnodup : cSig.idents.Nodup) :
    ∀ param ∈ func.params, flattened o param = true → ∀ other ∈ func.params, flattened o other = false →
      toCIdent other.1 ≠ "maybe_" ++ toCIdent param.1 := by
  intro param hparam hf other hother hf' heq
  rw [hp.idents] at hnodup
  have hsame : other = param :=
    List.inj_on_of_nodup_map (List.nodup_append.mp hnodup).1 hother hparam
      ((printName_plain hf').trans (heq.trans (printName_flattened hf).symm))
  rw [hsame, hf] at hf'
  exact nomatch hf'

/-- No return pointer has the name of a parameter, as the condition puts it. -/
theorem ret_iff (hp : Printed o func cSig) :
    (o.async_ = false → ∀ ret, classifyRet o func = .ok ret →
      ∀ param ∈ func.params, Shown o param → toCIdent param.1 ∉ retptrNames ret) ↔
      ∀ param ∈ func.params, Shown o param → toCIdent param.1 ∉ cSig.retptrs := by
  constructor
  · intro h param hparam hshown hx
    obtain ⟨hsync, ret, hret, hmem⟩ := (hp.retptrs _).mp hx
    exact h hsync ret hret param hparam hshown hmem
  · intro h hsync ret hret param hparam hshown hmem
    exact h param hparam hshown ((hp.retptrs _).mpr ⟨hsync, ret, hret, hmem⟩)

end Printed

/-! ## Scopes -/

theorem hygienic_ok {scopes : List Scope} : Hygienic (.ok scopes) ↔ ∀ s ∈ scopes, s.Distinct := Iff.rfl

theorem not_hygienic {name : String} : ¬Hygienic (.error (.defined name)) := id

/-- A scope whose locals are temporaries. -/
theorem distinct_tmps {params : List String} {ns : Ns} (ts : List Temp) (hparams : params.Nodup)
    (hdefined : ∀ x ∈ params, x ∈ ns.defined) : (Scope.mk params (tmps ns ts).1).Distinct := by
  obtain ⟨hnodup, hnew, -⟩ := tmps_fresh ns ts
  exact List.nodup_append.mpr ⟨hparams, hnodup, fun x hx y hy heq => (hnew y hy).1 (hdefined y (heq ▸ hx))⟩

theorem distinct_nil {params : List String} : (Scope.mk params []).Distinct ↔ params.Nodup := by
  rw [Scope.Distinct, List.append_nil]

/-- In an import the identifier of every parameter is declared: in the signature, or for the
pointer to a flattened option. -/
theorem distinct_sync (ns : Ns) (ts : List Temp) (area : Bool) (hp : Printed o func cSig) (hnodup : (idents func).Nodup)
    (hret : ∀ param ∈ func.params, toCIdent param.1 ∉ cSig.retptrs)
    (hdefined : ∀ x, x ∈ ns.defined ↔ x ∈ cSig.retptrs ∨ x ∈ idents func) :
    (Scope.mk cSig.idents (((func.params.filter (flattened o)).map fun param => toCIdent param.1) ++
      (if area then ["ret_area"] else []) ++ (tmps ns ts).1)).Distinct ↔
      (∀ param ∈ func.params, flattened o param = true →
        ∀ other ∈ func.params, toCIdent other.1 ≠ "maybe_" ++ toCIdent param.1) ∧
      (area = true → ∀ param ∈ func.params, toCIdent param.1 ≠ "ret_area") := by
  have hadapter : ∀ x, x ∈ ((func.params.filter (flattened o)).map fun param => toCIdent param.1) ↔
      ∃ param ∈ func.params, flattened o param = true ∧ toCIdent param.1 = x := fun x => by
    simp only [List.mem_map, List.mem_filter, and_assoc]
  have hname : ∀ x ∈ cSig.idents, x ∈ cSig.retptrs ∨
      ∃ param ∈ func.params, x = toCIdent param.1 ∧ flattened o param = false ∨
        x = "maybe_" ++ toCIdent param.1 ∧ flattened o param = true := by
    intro x hx
    rw [hp.idents, List.mem_append, List.mem_map] at hx
    rcases hx with ⟨param, hparam, rfl⟩ | hx
    · refine Or.inr ⟨param, hparam, ?_⟩
      cases hf : flattened o param
      · exact Or.inl ⟨printName_plain hf, rfl⟩
      · exact Or.inr ⟨printName_flattened hf, rfl⟩
    · exact Or.inl hx
  have hprinted : ∀ param ∈ func.params, printName o param ∈ cSig.idents := fun param hparam => by
    rw [hp.idents]
    exact List.mem_append_left _ (List.mem_map_of_mem hparam)
  obtain ⟨htmps, hnew, -⟩ := tmps_fresh ns ts
  constructor
  · intro h
    obtain ⟨hidents, hlocals, hne⟩ := List.nodup_append.mp h
    obtain ⟨hleft, -, -⟩ := List.nodup_append.mp hlocals
    obtain ⟨-, -, hne'⟩ := List.nodup_append.mp hleft
    refine ⟨fun param hparam hf other hother heq => ?_, fun harea param hparam heq => ?_⟩
    · cases hf' : flattened o other
      · exact hp.maybe_of_nodup hidents param hparam hf other hother hf' heq
      · refine hne _ (hprinted param hparam) (toCIdent other.1) ?_ ((printName_flattened hf).trans heq.symm)
        exact List.mem_append_left _ (List.mem_append_left _ ((hadapter _).mpr ⟨other, hother, hf', rfl⟩))
    · have hmem : "ret_area" ∈ if area then ["ret_area"] else [] := by rw [if_pos harea]; exact List.mem_singleton_self _
      cases hf : flattened o param
      · refine hne _ (hprinted param hparam) "ret_area" ?_ ((printName_plain hf).trans heq)
        exact List.mem_append_left _ (List.mem_append_right _ hmem)
      · exact hne' _ ((hadapter _).mpr ⟨param, hparam, hf, rfl⟩) _ hmem heq
  · rintro ⟨hmaybe, harea⟩
    have harea_eq : ∀ y ∈ (if area then ["ret_area"] else []), area = true ∧ y = "ret_area" := by
      intro y hy
      split at hy
      · exact ⟨‹_›, List.mem_singleton.mp hy⟩
      · exact absurd hy List.not_mem_nil
    refine List.nodup_append.mpr ⟨?_, List.nodup_append.mpr ⟨List.nodup_append.mpr ⟨?_, ?_, ?_⟩, htmps, ?_⟩, ?_⟩
    · exact hp.nodup_of hnodup (fun param hparam _ => hret param hparam) fun param hparam hf other hother _ =>
        hmaybe param hparam hf other hother
    · exact hnodup.sublist (List.filter_sublist.map _)
    · split <;> decide
    · rintro x hx y hy rfl
      obtain ⟨param, hparam, -, rfl⟩ := (hadapter x).mp hx
      obtain ⟨ha, hy⟩ := harea_eq _ hy
      exact harea ha param hparam hy
    · rintro x hx y hy rfl
      rcases List.mem_append.mp hx with hx | hx
      · obtain ⟨param, hparam, -, rfl⟩ := (hadapter x).mp hx
        exact (hnew _ hy).1 ((hdefined _).mpr (Or.inr (List.mem_map_of_mem hparam)))
      · obtain ⟨-, rfl⟩ := harea_eq _ hx
        exact (hnew _ hy).2 (by decide +kernel)
    · rintro x hx y hy rfl
      rcases hname x hx with hx | ⟨param, hparam, ⟨rfl, hf⟩ | ⟨rfl, hf⟩⟩
      · rcases List.mem_append.mp hy with hy | hy
        · rcases List.mem_append.mp hy with hy | hy
          · obtain ⟨param, hparam, -, rfl⟩ := (hadapter x).mp hy
            exact hret param hparam hx
          · obtain ⟨-, rfl⟩ := harea_eq _ hy
            exact hp.clean hx (by decide +kernel)
        · exact (hnew _ hy).1 ((hdefined _).mpr (Or.inl hx))
      · rcases List.mem_append.mp hy with hy | hy
        · rcases List.mem_append.mp hy with hy | hy
          · obtain ⟨other, hother, hf', heq⟩ := (hadapter _).mp hy
            have hsame := List.inj_on_of_nodup_map hnodup hother hparam heq
            rw [hsame, hf] at hf'
            exact nomatch hf'
          · obtain ⟨ha, heq⟩ := harea_eq _ hy
            exact harea ha param hparam heq
        · exact (hnew _ hy).1 ((hdefined _).mpr (Or.inr (List.mem_map_of_mem hparam)))
      · rcases List.mem_append.mp hy with hy | hy
        · rcases List.mem_append.mp hy with hy | hy
          · obtain ⟨other, hother, -, heq⟩ := (hadapter _).mp hy
            exact hmaybe param hparam hf other hother heq
          · exact maybe_ne_area _ (harea_eq _ hy).2
        · exact (hnew _ hy).2 (maybe_underscore _)

theorem importBodySync_hygienic (body : Body) (himport : o.inImport = true) (hsync : o.async_ = false)
    (hp : Printed o func cSig) : Hygienic (importBodySync o func sig cSig body) ↔ Apart o func sig := by
  have hnew := newLocals_ends (cSig.params.map (·.2))
  rw [hp.params] at hnew
  rw [importBodySync, hp.params]
  cases hl : newLocals (idents func) with
  | error e =>
    rw [hl] at hnew
    obtain ⟨⟨name, rfl⟩, hnot⟩ := hnew
    exact iff_of_false not_hygienic fun h => hnot (h.params fun hf => nomatch hsync.symm.trans hf.2.1)
  | ok locals =>
    rw [hl] at hnew
    obtain ⟨hnodup, hlocals⟩ := hnew
    have hinsert := insert_ends locals cSig.retptrs
    show Hygienic (cSig.retptrs.foldlM insertLocal locals >>= _) ↔ _
    cases hl' : cSig.retptrs.foldlM insertLocal locals with
    | error e =>
      rw [hl'] at hinsert
      obtain ⟨⟨name, rfl⟩, hnot⟩ := hinsert
      refine iff_of_false not_hygienic fun h => hnot ⟨hp.nodup, fun x hx hdefined => ?_⟩
      obtain ⟨param, hparam, rfl⟩ := List.mem_map.mp ((hlocals x).mp hdefined)
      exact hp.ret_iff.mp h.ret param hparam (Or.inl himport) hx
    | ok locals' =>
      rw [hl'] at hinsert
      obtain ⟨⟨-, hret⟩, hdefined⟩ := hinsert
      have hret' : ∀ param ∈ func.params, toCIdent param.1 ∉ cSig.retptrs := fun param hparam hx =>
        hret _ hx ((hlocals _).mpr (List.mem_map_of_mem hparam))
      have hdistinct := distinct_sync locals' body.before (sig.indirectParams || sig.retptr) hp hnodup hret'
        fun x => (hdefined x).trans (or_congr_right (hlocals x))
      refine (List.forall_mem_singleton.trans hdistinct).trans ⟨fun h => ?_, fun h => ?_⟩
      · exact ⟨fun _ => hnodup, hp.ret_iff.mpr fun param hparam _ => hret' param hparam,
          fun _ param hparam hf other hother _ => h.1 param hparam hf other hother,
          fun _ _ harea => h.2 ((Bool.or_eq_true _ _).mpr harea), fun _ hasync => nomatch hsync.symm.trans hasync⟩
      · exact ⟨fun param hparam hf other hother =>
          h.maybe (fun hf => nomatch hsync.symm.trans hf.2) param hparam hf other hother (Or.inl himport),
          fun harea => h.area himport hsync ((Bool.or_eq_true _ _).mp harea)⟩

theorem importBodyAsync_hygienic (body : Body) (himport : o.inImport = true) (hasync : o.async_ = true)
    (hparams : cSig.params = printSigAsyncImportParams func sig)
    (hidents : cSig.idents = (printSigAsyncImportParams func sig).map (·.2)) :
    Hygienic (importBodyAsync sig cSig body) ↔ Apart o func sig := by
  by_cases hindirect : sig.indirectParams = true
  · have hnodup : cSig.idents.Nodup := by
      rw [hidents, printSigAsyncImportParams, if_pos hindirect]
      split <;> split <;> decide +kernel
    rw [importBodyAsync, if_pos hindirect]
    refine iff_of_true (List.forall_mem_singleton.mpr (distinct_nil.mpr hnodup)) ?_
    exact ⟨fun h => absurd ⟨himport, hasync, hindirect⟩ h, fun hsync => (nomatch hasync.symm.trans hsync),
      fun h => absurd ⟨himport, hasync⟩ h, fun _ hsync => (nomatch hasync.symm.trans hsync),
      fun _ _ hdirect => nomatch hindirect.symm.trans hdirect⟩
  · have hdirect : sig.indirectParams = false := Bool.eq_false_iff.mpr hindirect
    have hnames : (printSigAsyncImportParams func sig).map (·.2) =
        idents func ++ if func.result.isSome then ["result"] else [] := by
      rw [printSigAsyncImportParams, if_neg hindirect, List.map_append, List.map_map]
      split <;> rfl
    have hapart : Apart o func sig ↔ (idents func ++ if func.result.isSome then ["result"] else []).Nodup := by
      rw [List.nodup_append]
      constructor
      · intro h
        refine ⟨h.params fun hf => hindirect hf.2.2, by split <;> decide, ?_⟩
        rintro x hx y hy rfl
        obtain ⟨param, hparam, rfl⟩ := List.mem_map.mp hx
        split at hy
        · exact h.result himport hasync hdirect ‹_› param hparam (List.mem_singleton.mp hy)
        · exact List.not_mem_nil hy
      · rintro ⟨hnodup, -, hne⟩
        refine ⟨fun _ => hnodup, fun hsync => (nomatch hasync.symm.trans hsync), fun h => absurd ⟨himport, hasync⟩ h,
          fun _ hsync => (nomatch hasync.symm.trans hsync), fun _ _ _ hresult param hparam => ?_⟩
        rw [if_pos hresult] at hne
        exact hne _ (List.mem_map_of_mem hparam) _ (List.mem_singleton_self _)
    have hnew := newLocals_ends ((printSigAsyncImportParams func sig).map (·.2))
    rw [importBodyAsync, if_neg hindirect, hapart, hparams, hidents, ← hnames]
    cases hl : newLocals ((printSigAsyncImportParams func sig).map (·.2)) with
    | error e =>
      rw [hl] at hnew
      obtain ⟨⟨name, rfl⟩, hnot⟩ := hnew
      exact iff_of_false not_hygienic hnot
    | ok locals =>
      rw [hl] at hnew
      obtain ⟨hnodup, hlocals⟩ := hnew
      exact iff_of_true (List.forall_mem_singleton.mpr (distinct_tmps _ hnodup fun x => (hlocals x).mpr)) hnodup

/-- The function called by post-return has no name of the user's. -/
theorem postReturn_ok (sig : WasmSignature) (post : Option (List Temp)) :
    ∃ scopes, postReturn sig post = .ok scopes ∧ ∀ s ∈ scopes, s.Distinct := by
  cases post with
  | none => exact ⟨[], rfl, nofun⟩
  | some temps =>
    have hnodup : (sig.results.mapIdx fun i _ => "arg" ++ toString i).Nodup := by
      refine List.pairwise_iff_getElem.mpr fun i j hi hj hlt heq => ?_
      rw [List.getElem_mapIdx, List.getElem_mapIdx] at heq
      have hchars := congrArg String.toList heq
      rw [String.toList_append, String.toList_append] at hchars
      exact Nat.ne_of_lt hlt (toString_inj (String.toList_inj.mp (List.append_cancel_left hchars)))
    have hnew := newLocals_ends (sig.results.mapIdx fun i _ => "arg" ++ toString i)
    rw [postReturn]
    cases hl : newLocals (sig.results.mapIdx fun i _ => "arg" ++ toString i) with
    | error e =>
      rw [hl] at hnew
      exact absurd hnodup hnew.2
    | ok locals =>
      rw [hl] at hnew
      exact ⟨_, rfl, List.forall_mem_singleton.mpr (distinct_tmps _ hnodup fun x => (hnew.2 x).mpr)⟩

/-- The generated functions behind an export have names from `locals` only. -/
theorem export_hygienic (body : Body) (hexport : o.inImport = false) (hp : Printed o func cSig) :
    Hygienic (export_ o func sig cSig body) ↔ Apart o func sig := by
  have hshown : ∀ param, Shown o param ↔ flattened o param = false := fun param =>
    or_iff_right (ne_true_of_eq_false hexport)
  have hapart : Apart o func sig ↔ (idents func).Nodup ∧ cSig.idents.Nodup := by
    constructor
    · intro h
      have hnodup := h.params fun hf => nomatch hexport.symm.trans hf.1
      refine ⟨hnodup, hp.nodup_of hnodup (fun param hparam hf => ?_) fun param hparam hf other hother hf' => ?_⟩
      · exact hp.ret_iff.mp h.ret param hparam ((hshown param).mpr hf)
      · exact h.maybe (fun hf => nomatch hexport.symm.trans hf.1) param hparam hf other hother ((hshown other).mpr hf')
    · rintro ⟨hnodup, hidents⟩
      refine ⟨fun _ => hnodup, hp.ret_iff.mpr fun param hparam hs => ?_, fun _ param hparam hf other hother hs => ?_,
        fun himport => (nomatch hexport.symm.trans himport), fun himport => nomatch hexport.symm.trans himport⟩
      · exact hp.ret_of_nodup hidents param hparam ((hshown param).mp hs)
      · exact hp.maybe_of_nodup hidents param hparam hf other hother ((hshown other).mp hs)
  have hnew := newLocals_ends (cSig.params.map (·.2))
  rw [hapart, export_, hp.params]
  rw [hp.params] at hnew
  cases hl : newLocals (idents func) with
  | error e =>
    rw [hl] at hnew
    obtain ⟨⟨name, rfl⟩, hnot⟩ := hnew
    exact iff_of_false not_hygienic fun h => hnot h.1
  | ok locals =>
    rw [hl] at hnew
    rw [and_iff_right hnew.1]
    obtain ⟨hargs, -, hargs'⟩ := tmps_fresh locals (List.replicate sig.params.length ⟨"arg", by decide⟩)
    simp only [bind, Except.bind]
    generalize tmps locals (List.replicate sig.params.length ⟨"arg", by decide⟩) = args at hargs hargs' ⊢
    have hbefore := distinct_tmps body.before hargs fun x hx => (hargs' x).mpr (Or.inl hx)
    obtain ⟨-, -, hbefore'⟩ := tmps_fresh args.2 body.before
    generalize tmps args.2 body.before = before at hbefore hbefore' ⊢
    by_cases hasync : o.async_ = true
    · rw [if_pos hasync]
      show Hygienic (.ok [⟨cSig.idents, []⟩, ⟨args.1, before.1 ++ [(before.2.tmpName "ret").1]⟩,
        ⟨if func.result.isSome then ["ret"] else [], (tmps (before.2.tmpName "ret").2 body.after).1⟩]) ↔ _
      have hcall : (Scope.mk args.1 (before.1 ++ [(before.2.tmpName "ret").1])).Distinct := by
        rw [Scope.Distinct, ← List.append_assoc]
        refine List.nodup_append.mpr ⟨hbefore, List.nodup_singleton _, fun x hx y hy heq => ?_⟩
        refine tmpName_fresh before.2 "ret" ((hbefore' _).mpr ?_)
        rw [← List.mem_singleton.mp hy, ← heq]
        exact (List.mem_append.mp hx).symm.imp_right fun h => (hargs' x).mpr (Or.inl h)
      have hreturn : (Scope.mk (if func.result.isSome then ["ret"] else [])
          (tmps (before.2.tmpName "ret").2 body.after).1).Distinct := by
        refine distinct_tmps _ (by split <;> decide) fun x hx => ?_
        split at hx
        · exact List.mem_singleton.mp hx ▸ mem_tmpName before.2 "ret"
        · exact absurd hx List.not_mem_nil
      rw [hygienic_ok, List.forall_mem_cons, List.forall_mem_cons, distinct_nil, List.forall_mem_singleton]
      exact and_iff_left ⟨hcall, hreturn⟩
    · rw [if_neg hasync]
      obtain ⟨post, hpost, hdistinct⟩ := postReturn_ok sig body.post
      rw [hpost]
      show Hygienic (.ok (⟨cSig.idents, []⟩ :: ⟨args.1, before.1⟩ :: post)) ↔ _
      rw [hygienic_ok, List.forall_mem_cons, List.forall_mem_cons, distinct_nil]
      exact and_iff_left ⟨hbefore, hdistinct⟩

theorem hygienic_of_ne {e : Panic} (he : ∀ name, e ≠ .defined name) : Hygienic (.error e) := by
  cases e with
  | defined name => exact absurd rfl (he name)
  | todo | unreachable => trivial

theorem generate_async_import (W : WitParser) (func : Function) (body : Body) (himport : o.inImport = true)
    (hasync : o.async_ = true) :
    Hygienic (generate W o func body) ↔ (Supported o func → Apart o func (W.wasmSignature o.variant func)) := by
  rw [generate]
  generalize W.wasmSignature o.variant func = sig
  have hsig := printSig_async_import o func sig himport hasync
  cases hc : printSig o func sig with
  | error e =>
    rw [hc] at hsig
    exact iff_of_true (hygienic_of_ne hsig.1) fun h => absurd h hsig.2
  | ok cSig =>
    rw [hc] at hsig
    obtain ⟨hsupported, hparams, hidents⟩ := hsig
    rw [forall_prop_of_true hsupported, ← importBodyAsync_hygienic body himport hasync hparams hidents]
    simp only [himport, hasync]
    rfl

theorem generate_printed (W : WitParser) (func : Function) (body : Body)
    (hkind : ¬(o.inImport = true ∧ o.async_ = true)) :
    Hygienic (generate W o func body) ↔ (Supported o func → Apart o func (W.wasmSignature o.variant func)) := by
  rw [generate]
  generalize W.wasmSignature o.variant func = sig
  have hsig := printSig_printed o func sig hkind
  cases hc : printSig o func sig with
  | error e =>
    rw [hc] at hsig
    exact iff_of_true (hygienic_of_ne hsig.1) fun h => absurd h hsig.2
  | ok cSig =>
    rw [hc] at hsig
    obtain ⟨hsupported, hprinted⟩ := hsig
    rw [forall_prop_of_true hsupported]
    by_cases himport : o.inImport = true
    · have hsync : o.async_ = false := Bool.eq_false_iff.mpr fun h => hkind ⟨himport, h⟩
      rw [← importBodySync_hygienic body himport hsync hprinted]
      simp only [himport, hsync]
      rfl
    · rw [← export_hygienic body (Bool.eq_false_iff.mpr himport) hprinted]
      simp only [Bool.eq_false_iff.mpr himport]
      rfl

/-- No identifier of a function is declared twice, exactly where the names of its parameters
are apart. -/
theorem generate_hygienic (W : WitParser) (o : Options) (func : Function) (body : Body) :
    Hygienic (generate W o func body) ↔ (Supported o func → Apart o func (W.wasmSignature o.variant func)) := by
  by_cases hkind : o.inImport = true ∧ o.async_ = true
  · exact generate_async_import W func body hkind.1 hkind.2
  · exact generate_printed W func body hkind

/-- With `f: func(x: option<u32>, maybe-x: u32)` the flattened option and the other parameter
are both called `maybe_x`. -/
theorem option_clash :
    ¬Hygienic (generate .canonical ⟨true, false, false⟩
      ⟨"f", .freestanding, [("x", .option 0 (.prim .u32)), ("maybe-x", .prim .u32)], none⟩ ⟨[], [], none⟩) := by
  have hident : toCIdent "maybe-x" = "maybe_" ++ toCIdent "x" := by decide +kernel
  intro h
  have hsync : ¬(true = true ∧ false = true) := by decide
  refine (((generate_printed _ _ _ hsync).mp h) ⟨fun _ => ⟨_, rfl⟩, fun _ => ?_⟩).maybe hsync
    ("x", .option 0 (.prim .u32)) ?_ rfl ("maybe-x", .prim .u32) ?_ (Or.inl rfl) hident
  · refine List.forall_mem_cons.mpr ⟨⟨true, ?_⟩, List.forall_mem_singleton.mpr ⟨false, ?_⟩⟩ <;> rw [isArgByPointer]
  · exact List.mem_cons_self
  · exact List.mem_cons_of_mem _ (List.mem_singleton_self _)

end WitBindgen.C.Identifiers
