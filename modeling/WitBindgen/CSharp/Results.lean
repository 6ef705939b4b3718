import WitBindgen.Wit.Resolve
import WitBindgen.Wit.Parser
import Mathlib.Data.List.Basic
import Mathlib.Tactic.Common

/-!
# Results as exceptions

A function whose result type is a result returns what is in the ok position in C#, and
throws a `WitException` for an error. `handle_result_import` unfolds what the host
returned, `handle_result_call` folds what the implementation did. Both go through the
results that are nested in ok position, and the level of an exception is the number of
results around the one that is an error.
-/

namespace WitBindgen

/-- `InterfaceGenerator::is_async` -/
def FunctionKind.isAsync : FunctionKind → Bool
  | asyncFreestanding => true
  | asyncMethod _ => true
  | asyncStatic _ => true
  | _ => false

def FunctionKind.isConstructor : FunctionKind → Bool
  | constructor _ => true
  | _ => false

end WitBindgen

namespace WitBindgen.CSharp

namespace Results

/-- A function with a result, and the option `with_wit_results`. -/
structure Func where
  kind : FunctionKind
  result : TypeRef
  withWitResults : Bool

/-! ## Values -/

/-- Objects of C#: `None`, those of the other types, and `Result`s. -/
inductive Val where
  | none
  | obj (t : TypeRef) (n : Nat)
  | ok (t : TypeId) (v : Val)
  | err (t : TypeId) (v : Val)
  deriving DecidableEq

/-- `None` stands for an absent type. -/
def Val.type : Val → Option TypeRef
  | none => Option.none
  | obj t _ => some t
  | ok t _ => some (.id t)
  | err t _ => some (.id t)

/-- How a method ends: with a value, if it is not `void`, or a `WitException`. -/
inductive Completion where
  | returned (v : Option Val)
  | thrown (value : Val) (level : Nat)
  deriving DecidableEq

section

variable (r : Resolve)

/-- The types of a result; the loops go over nothing else. -/
def okErr (id : TypeId) : Option TypeRef × Option TypeRef :=
  match r.types id with
  | .result ok err => (ok, err)
  | _ => (none, none)

/-- Results nested in ok position, and what is in the innermost one. -/
inductive Chain : TypeRef → List TypeId → Option TypeRef → Prop where
  | payload (t : TypeRef) (ht : ∀ i ok err, t = .id i → r.types i ≠ .result ok err) :
      Chain t [] (some t)
  | void (i : TypeId) (err : Option TypeRef) (h : r.types i = .result none err) :
      Chain (.id i) [i] none
  | nested (i : TypeId) (t : TypeRef) (err : Option TypeRef) (ids : List TypeId)
      (payload : Option TypeRef) (h : r.types i = .result (some t) err)
      (ht : Chain t ids payload) : Chain (.id i) (i :: ids) payload

/-- A value of a chain of results. -/
def IsValue (payload : Option TypeRef) : List TypeId → Val → Prop
  | [], v => v.type = payload
  | i :: ids, v => (∃ w, v = .ok i w ∧ IsValue payload ids w) ∨
      ∃ e, v = .err i e ∧ e.type = (okErr r i).2

end

/-- What the value is to a caller: the innermost ok value, or its error with the level. -/
def outcome (payload : Option TypeRef) : Nat → List TypeId → Val → Completion
  | _, [], v => .returned (payload.map fun _ => v)
  | level, _ :: ids, .ok _ v => outcome payload (level + 1) ids v
  | level, _ :: _, .err _ e => .thrown e level
  | _, _ :: _, _ => .returned none

/-! ## The generators -/

section

variable (r : Resolve)

/-- `recurse` of `payload_and_results` -/
def recurse : TypeRef → Option TypeRef × List TypeId
  | .id i =>
    match _hk : r.types i with
    | .result (some t) _ => ((recurse t).1, i :: (recurse t).2)
    | .result none _ => (none, [i])
    | _ => (some (.id i), [])
  | t => (some t, [])
termination_by t => r.weight t
decreasing_by all_goals exact r.weight_lt_of ‹_› (by simp [TypeDefKind.components])

def payloadAndResults (t : TypeRef) (withWitResults : Bool) : Option TypeRef × List TypeId :=
  if withWitResults then (some t, []) else recurse r t

/-- What `func_payload_and_return_type` passes to the function's `FunctionBindgen`. -/
def Func.results (f : Func) : List TypeId :=
  if f.kind.isConstructor then [] else (payloadAndResults r f.result f.withWitResults).2

/-- Locals are numbered; `locals.tmp` never gives a name twice. -/
abbrev Local := Nat

/-- Lines of an import's body. -/
inductive Line where
  /-- `foreach (var cleanup in cleanups) { cleanup(); }` -/
  | cleanup
  /-- `if (scrutinee.IsOk) { var tmp = scrutinee.AsOk;` -/
  | ifOk (scrutinee tmp : Local)
  | return (v : Option Local)
  /-- `} else { throw new WitException<ty>(var.AsErr!, level); }` -/
  | elseThrow (ty : Option TypeRef) (var : Local) (level : Nat)
  deriving DecidableEq

structure Unfolding where
  lines : List Line
  vars : List (Local × Option TypeRef)
  payloadIsVoid : Bool
  previous : Local
  next : Local

def Unfolding.start (operand : Local) : Unfolding := ⟨[], [], false, operand, operand + 1⟩

/-- One round of the loop over `self.results`. -/
def Unfolding.enter (u : Unfolding) (ty : TypeId) : Unfolding where
  lines := u.lines ++ [.ifOk u.previous u.next]
  vars := u.vars ++ [(u.previous, (okErr r ty).2)]
  payloadIsVoid := (okErr r ty).1.isNone
  previous := u.next
  next := u.next + 1

def Unfolding.finish (u : Unfolding) : List Line :=
  u.lines ++ [Line.return (if u.payloadIsVoid then none else some u.previous)]
    ++ u.vars.zipIdx.reverse.map fun v => Line.elseThrow v.1.2 v.1.1 v.2

def handleResultImport (withWitResults : Bool) (results : List TypeId) (operand : Local) :
    List Line :=
  if withWitResults then [Line.return (some operand)]
  else (results.foldl (Unfolding.enter r) (Unfolding.start operand)).finish

/-- The end of an import's body, from where the lifted result is in a local. The body of an
async import returns a task whose value is the lifted result, and there is nothing after
the call in a constructor. -/
def Func.importLines (f : Func) (needsCleanup : Bool) (operand : Local) : List Line :=
  if f.kind.isAsync then [Line.return (some operand)]
  else (if needsCleanup then [Line.cleanup] else [])
    ++ if f.kind.isConstructor then []
      else handleResultImport r f.withWitResults (f.results r) operand

inductive Expr where
  /-- `target.func(oper)` -/
  | call
  | newNone
  /-- `ty.Ok(e)` -/
  | ok (ty : TypeId) (e : Expr)
  /-- `ty.Err((errTy) e.Value)` -/
  | err (ty : TypeId) (errTy : Option TypeRef)
  | await (e : Expr)
  deriving DecidableEq

/-- `target.func(oper);`, if there is that line, `ret = value;`, and the cases on the level
of a `WitException` that is caught around them. -/
structure ResultCall where
  statement : Bool
  value : Expr
  cases : List (Nat × Expr)
  deriving DecidableEq

/-- `{oks}e{tail}` -/
def wrap (oks : List TypeId) (e : Expr) : Expr := oks.foldr .ok e

structure Folding where
  cases : List (Nat × Expr)
  oks : List TypeId
  payloadIsVoid : Bool

def Folding.start : Folding := ⟨[], [], false⟩

def Folding.enter (u : Folding) (ty : TypeId × Nat) : Folding where
  cases := u.cases ++ [(ty.2, wrap u.oks (.err ty.1 (okErr r ty.1).2))]
  oks := u.oks ++ [ty.1]
  payloadIsVoid := (okErr r ty.1).1.isNone

def Folding.finish (u : Folding) (useAwait : Bool) : ResultCall :=
  let value := wrap u.oks (if u.payloadIsVoid then .newNone else .call)
  ⟨u.payloadIsVoid, if useAwait then .await value else value, u.cases⟩

def handleResultCall (withWitResults : Bool) (results : List TypeId) (useAwait : Bool) :
    ResultCall :=
  if withWitResults then ⟨false, .call, []⟩
  else (results.zipIdx.foldl (Folding.enter r) Folding.start).finish useAwait

/-- `CallInterface` of an export. -/
def Func.exportCall (f : Func) : ResultCall :=
  if f.kind.isConstructor then ⟨false, .call, []⟩
  else handleResultCall r f.withWitResults (f.results r) f.kind.isAsync

end

/-! ## What the generated code does -/

inductive Event where
  | cleanup
  | call
  | lower (v : Val)
  | return
  deriving DecidableEq

/-- From a scrutinee that is an error to the `else` of its `if`. -/
def runElse (env : Local → Option Val) : Nat → List Line → Option Completion
  | depth, .ifOk _ _ :: ls => runElse env (depth + 1) ls
  | 0, .elseThrow _ x level :: _ =>
    match env x with
    | some (.err _ e) => some (.thrown e level)
    | _ => none
  | depth + 1, .elseThrow _ _ _ :: ls => runElse env depth ls
  | depth, .cleanup :: ls => runElse env depth ls
  | depth, .return _ :: ls => runElse env depth ls
  | _, [] => none

/-- `none` is a program that C# rejects. -/
def runLines (env : Local → Option Val) : List Line → Option (List Event × Completion)
  | .cleanup :: ls => (runLines env ls).map fun (es, c) => (.cleanup :: es, c)
  | .ifOk x tmp :: ls =>
    match env x with
    | some (.ok _ v) => runLines (Function.update env tmp (some v)) ls
    | some (.err _ _) => (runElse env 0 ls).map fun c => ([], c)
    | _ => none
  | .return none :: _ => some ([], .returned none)
  | .return (some x) :: _ => (env x).map fun v => ([], .returned (some v))
  -- the end of a block that was entered
  | .elseThrow _ _ _ :: ls => runLines env ls
  | [] => some ([], .returned none)

/-- What an expression evaluates to. -/
inductive Thing where
  | val (v : Val)
  | void
  | task (c : Completion)
  deriving DecidableEq

def Completion.evaluated : Completion → Except (Val × Nat) Thing
  | returned (some v) => .ok (.val v)
  | returned none => .ok .void
  | thrown e level => .error (e, level)

/-- `caught` is the value of the exception that is being handled. A call to an async method
starts a task, which alone can be awaited. -/
def Expr.eval (impl : Completion) (isAsync : Bool) (caught : Val) :
    Expr → Option (List Event × Except (Val × Nat) Thing)
  | call => some ([.call], if isAsync then .ok (.task impl) else impl.evaluated)
  | newNone => some ([], .ok (.val .none))
  | ok ty e =>
    match e.eval impl isAsync caught with
    | some (es, .ok (.val v)) => some (es, .ok (.val (.ok ty v)))
    | some (es, .error x) => some (es, .error x)
    | _ => none
  | err ty errTy => if caught.type = errTy then some ([], .ok (.val (.err ty caught))) else none
  | await e =>
    match e.eval impl isAsync caught with
    | some (es, .ok (.task c)) => some (es, c.evaluated)
    | some (es, .error x) => some (es, .error x)
    | _ => none

namespace ResultCall

/-- The statements inside the `try`. -/
def body (c : ResultCall) (impl : Completion) (isAsync : Bool) :
    Option (List Event × Except (Val × Nat) Thing) :=
  if c.statement then
    match Expr.call.eval impl isAsync .none with
    | some (es, .ok _) => (c.value.eval impl isAsync .none).map fun (es', v) => (es ++ es', v)
    | other => other
  else c.value.eval impl isAsync .none

/-- The value of `ret`. -/
def run (c : ResultCall) (impl : Completion) (isAsync : Bool) : Option (List Event × Val) :=
  match c.body impl isAsync with
  | some (es, .ok (.val v)) => some (es, v)
  | some (es, .error (e, level)) =>
    match c.cases.lookup level with
    | some case =>
      match case.eval impl isAsync e with
      | some (_, .ok (.val v)) => some (es, v)
      | _ => none
    | none => none
  | _ => none

end ResultCall

section

variable (r : Resolve) (f : Func)

/-- An import, from the result that was lifted. -/
def Func.runImport (needsCleanup : Bool) (lifted : Val) : Option (List Event × Completion) :=
  runLines (fun x => if x = 0 then some lifted else none) (f.importLines r needsCleanup 0)

/-- An export: the call, the lowering of `ret`, the cleanup, the return. -/
def Func.runExport (needsCleanup : Bool) (impl : Completion) : Option (List Event) :=
  ((f.exportCall r).run impl f.kind.isAsync).map fun (es, v) =>
    es ++ [Event.lower v] ++ (if needsCleanup then [Event.cleanup] else []) ++ [Event.return]

/-- The level of the exception that a line throws. -/
def Line.thrownLevel : Line → Option Nat
  | elseThrow _ _ level => some level
  | _ => none

/-- Innermost first. -/
def Func.thrownLevels : List Nat := (f.importLines r false 0).filterMap Line.thrownLevel

/-- The import makes of every value its outcome, of which the export makes the value again. -/
structure Func.Lossless : Prop where
  imported : ∀ ids payload v needsCleanup, Chain r f.result ids payload → IsValue r payload ids v →
    f.runImport r needsCleanup v
      = some (if needsCleanup then [Event.cleanup] else [], outcome payload 0 ids v)
  exported : ∀ ids payload v needsCleanup, Chain r f.result ids payload → IsValue r payload ids v →
    f.runExport r needsCleanup (outcome payload 0 ids v)
      = some ([Event.call, .lower v] ++ (if needsCleanup then [Event.cleanup] else []) ++ [Event.return])
  thrown : ∀ ids payload, Chain r f.result ids payload →
    (f.thrownLevels r).reverse = List.range ids.length
  cases : ∀ ids payload, Chain r f.result ids payload →
    (f.exportCall r).cases.map Prod.fst = List.range ids.length

end

/-! ## The chain -/

section

variable {r : Resolve} {f : Func} {t : TypeRef} {ids : List TypeId} {payload : Option TypeRef}

theorem okErr_of {i : TypeId} {ok err : Option TypeRef} (h : r.types i = .result ok err) :
    okErr r i = (ok, err) := by
  unfold okErr
  split
  next h' =>
    cases h.symm.trans h'
    rfl
  next hne => exact absurd h (hne ok err)

theorem recurse_payload (h : ∀ i ok err, t = .id i → r.types i ≠ .result ok err) :
    recurse r t = (some t, []) := by
  unfold recurse
  split
  next i =>
    split
    next hk => exact absurd hk (h _ _ _ rfl)
    next hk => exact absurd hk (h _ _ _ rfl)
    next => rfl
  next => rfl

theorem recurse_chain (h : Chain r t ids payload) : recurse r t = (payload, ids) := by
  induction h with
  | payload t ht => exact recurse_payload ht
  | void i err h =>
    unfold recurse
    split
    next hk => cases h.symm.trans hk
    next => rfl
    next hne hne' => exact absurd h (hne' _)
  | nested i t err ids payload h _ ih =>
    unfold recurse
    split
    next hk =>
      cases h.symm.trans hk
      rw [ih]
    next hk => cases h.symm.trans hk
    next hne _ => exact absurd h (hne _ _)

theorem results_eq (h : Chain r f.result ids payload) (hw : f.withWitResults = false)
    (hc : f.kind.isConstructor = false) : f.results r = ids := by
  rw [Func.results, if_neg (by simp [hc]), payloadAndResults, if_neg (by simp [hw]),
    recurse_chain h]

/-! ## The import -/

variable (r) in
/-- The nested blocks of an import, with the exceptions of the levels. -/
def nest (p n level : Nat) (payloadIsVoid : Bool) : List TypeId → List Line
  | [] => [Line.return (if payloadIsVoid then none else some p)]
  | id :: ids => .ifOk p n :: nest n (n + 1) (level + 1) (okErr r id).1.isNone ids
      ++ [Line.elseThrow (okErr r id).2 p level]

/-- The levels are counted while the blocks are closed. -/
theorem finish_foldl (ids : List TypeId) (u : Unfolding) :
    (ids.foldl (Unfolding.enter r) u).finish
      = u.lines ++ nest r u.previous u.next u.vars.length u.payloadIsVoid ids
        ++ u.vars.zipIdx.reverse.map fun v => Line.elseThrow v.1.2 v.1.1 v.2 := by
  induction ids generalizing u with
  | nil => rfl
  | cons id ids ih =>
    rw [List.foldl_cons, ih]
    simp [Unfolding.enter, nest, List.zipIdx_append]

theorem handleResultImport_eq (ids : List TypeId) :
    handleResultImport r false ids 0 = nest r 0 1 0 false ids := by
  rw [handleResultImport, if_neg (by simp), finish_foldl]
  simp [Unfolding.start]

/-- A block that is not entered is skipped as a whole. -/
theorem runElse_nest (env : Local → Option Val) (ids : List TypeId) (p n level depth : Nat)
    (void : Bool) (rest : List Line) :
    runElse env depth (nest r p n level void ids ++ rest) = runElse env depth rest := by
  induction ids generalizing p n level depth void rest with
  | nil => cases depth <;> rfl
  | cons id ids ih =>
    have hopen : runElse env depth (nest r p n level void (id :: ids) ++ rest)
        = runElse env (depth + 1) (nest r n (n + 1) (level + 1) (okErr r id).1.isNone ids
          ++ .elseThrow (okErr r id).2 p level :: rest) := by
      cases depth <;> simp [nest, runElse]
    rw [hopen, ih]
    rfl

theorem runLines_nest (h : Chain r t ids payload) (p n level : Nat) (void : Bool)
    (env : Local → Option Val) (v : Val) (rest : List Line) (hvoid : ids = [] → void = false)
    (hp : env p = some v) (hv : IsValue r payload ids v) :
    runLines env (nest r p n level void ids ++ rest) = some ([], outcome payload level ids v) := by
  induction h generalizing p n level void env v rest with
  | payload t ht =>
    rw [nest, hvoid rfl]
    simp [runLines, hp, outcome]
  | void i err h =>
    rcases hv with ⟨w, rfl, -⟩ | ⟨e, rfl, -⟩
    · simp [nest, runLines, hp, okErr_of h, outcome]
    · simp [nest, runLines, runElse, hp, outcome]
  | nested i t err ids payload h _ ih =>
    have hopen : nest r p n level void (i :: ids) ++ rest
        = .ifOk p n :: (nest r n (n + 1) (level + 1) (okErr r i).1.isNone ids
          ++ .elseThrow (okErr r i).2 p level :: rest) := by simp [nest]
    rcases hv with ⟨w, rfl, hw⟩ | ⟨e, rfl, -⟩
    · rw [hopen, runLines, hp]
      exact ih n (n + 1) (level + 1) _ _ w _ (fun _ => by rw [okErr_of h]; rfl)
        (Function.update_self ..) hw
    · rw [hopen, runLines, hp]
      simp [runElse_nest, runElse, hp, outcome]

theorem thrownLevels_nest (ids : List TypeId) (p n level : Nat) (void : Bool) :
    ((nest r p n level void ids).filterMap Line.thrownLevel).reverse
      = List.range' level ids.length := by
  induction ids generalizing p n level void with
  | nil => rfl
  | cons id ids ih =>
    simp only [nest, List.filterMap_append, List.reverse_append, List.filterMap_cons,
      Line.thrownLevel, List.cons_append]
    rw [ih]
    rfl

/-! ## The export -/

variable (r) in
def casesFrom (oks : List TypeId) (level : Nat) : List TypeId → List (Nat × Expr)
  | [] => []
  | id :: ids => (level, wrap oks (.err id (okErr r id).2)) :: casesFrom (oks ++ [id]) (level + 1) ids

variable (r) in
def voidAfter (void : Bool) : List TypeId → Bool
  | [] => void
  | id :: ids => voidAfter (okErr r id).1.isNone ids

theorem foldl_enter (ids : List TypeId) (level : Nat) (u : Folding) :
    (ids.zipIdx level).foldl (Folding.enter r) u
      = ⟨u.cases ++ casesFrom r u.oks level ids, u.oks ++ ids, voidAfter r u.payloadIsVoid ids⟩ := by
  induction ids generalizing level u with
  | nil => simp [casesFrom, voidAfter]
  | cons id ids ih =>
    rw [List.zipIdx_cons, List.foldl_cons, ih]
    simp [Folding.enter, casesFrom, voidAfter]

theorem voidAfter_chain (h : Chain r t ids payload) (void : Bool) (hvoid : ids = [] → void = false) :
    voidAfter r void ids = payload.isNone := by
  induction h generalizing void with
  | payload t ht => rw [voidAfter, hvoid rfl, Option.isNone_some]
  | void i err h => rw [voidAfter, voidAfter, okErr_of h]
  | nested i t err ids payload h _ ih => exact ih _ fun _ => by rw [okErr_of h]; rfl

theorem labels_casesFrom (oks ids : List TypeId) (level : Nat) :
    (casesFrom r oks level ids).map Prod.fst = List.range' level ids.length := by
  induction ids generalizing oks level with
  | nil => rfl
  | cons id ids ih =>
    rw [casesFrom, List.map_cons, ih]
    rfl

/-- The case of a level has the Oks around that level. -/
theorem lookup_casesFrom (oks pre post : List TypeId) (id : TypeId) (level : Nat) :
    (casesFrom r oks level (pre ++ id :: post)).lookup (level + pre.length)
      = some (wrap (oks ++ pre) (.err id (okErr r id).2)) := by
  induction pre generalizing oks level with
  | nil => simp [casesFrom]
  | cons i pre ih =>
    have hne : (level + (i :: pre).length == level) = false := by simp
    rw [List.cons_append, casesFrom, List.lookup_cons, hne]
    have heq : level + (i :: pre).length = level + 1 + pre.length := by
      rw [List.length_cons]
      omega
    simp only [heq, ih (oks ++ [i]) (level + 1)]
    simp

section

variable {impl : Completion} {isAsync : Bool} {caught : Val} {e : Expr} {es : List Event}

theorem eval_wrap_val {v : Val} (oks : List TypeId)
    (h : e.eval impl isAsync caught = some (es, .ok (.val v))) :
    (wrap oks e).eval impl isAsync caught = some (es, .ok (.val (oks.foldr .ok v))) := by
  induction oks with
  | nil => exact h
  | cons i oks ih =>
    show (Expr.ok i (wrap oks e)).eval impl isAsync caught = _
    rw [Expr.eval, ih]
    rfl

theorem eval_wrap_error {x : Val × Nat} (oks : List TypeId)
    (h : e.eval impl isAsync caught = some (es, .error x)) :
    (wrap oks e).eval impl isAsync caught = some (es, .error x) := by
  induction oks with
  | nil => exact h
  | cons i oks ih =>
    show (Expr.ok i (wrap oks e)).eval impl isAsync caught = _
    rw [Expr.eval, ih]

end

/-- A value is Oks around what is returned, or Oks around the error that is thrown. -/
theorem outcome_cases {v : Val} (ids : List TypeId) (level : Nat) (hv : IsValue r payload ids v) :
    (∃ w, v = ids.foldr .ok w ∧ w.type = payload ∧
      outcome payload level ids v = .returned (payload.map fun _ => w)) ∨
    ∃ pre id post e, ids = pre ++ id :: post ∧ v = pre.foldr .ok (.err id e) ∧
      e.type = (okErr r id).2 ∧ outcome payload level ids v = .thrown e (level + pre.length) := by
  induction ids generalizing v level with
  | nil => exact .inl ⟨v, rfl, hv, rfl⟩
  | cons i ids ih =>
    rcases hv with ⟨w, rfl, hw⟩ | ⟨e, rfl, he⟩
    · rcases ih (level + 1) hw with ⟨u, rfl, hu, ho⟩ | ⟨pre, id, post, e, rfl, rfl, he, ho⟩
      · exact .inl ⟨u, rfl, hu, ho⟩
      · refine .inr ⟨i :: pre, id, post, e, rfl, rfl, he, ?_⟩
        rw [outcome, ho, List.length_cons, Nat.add_comm pre.length 1, Nat.add_assoc]
    · exact .inr ⟨[], i, ids, e, rfl, rfl, he, rfl⟩

/-- The call that is generated for a chain. -/
theorem handleResultCall_eq (h : Chain r t ids payload) :
    handleResultCall r false ids false
      = ⟨payload.isNone, wrap ids (if payload.isNone then .newNone else .call), casesFrom r [] 0 ids⟩ := by
  rw [handleResultCall, if_neg (by simp), foldl_enter]
  simp [Folding.start, Folding.finish, voidAfter_chain h false (fun _ => rfl)]

theorem body_thrown (ids : List TypeId) (cases : List (Nat × Expr)) (void : Bool) (x : Val × Nat) :
    ResultCall.body ⟨void, wrap ids (if void then .newNone else .call), cases⟩ (.thrown x.1 x.2) false
      = some ([.call], .error x) := by
  cases void with
  | true => rfl
  | false => exact eval_wrap_error ids rfl

theorem run_call (h : Chain r t ids payload) {v : Val} (hv : IsValue r payload ids v) :
    (handleResultCall r false ids false).run (outcome payload 0 ids v) false = some ([.call], v) := by
  rw [handleResultCall_eq h]
  rcases outcome_cases ids 0 hv with ⟨w, rfl, hw, ho⟩ | ⟨pre, id, post, e, rfl, rfl, he, ho⟩
  · have hbody : ResultCall.body ⟨payload.isNone,
        wrap ids (if payload.isNone then .newNone else .call), casesFrom r [] 0 ids⟩
        (.returned (payload.map fun _ => w)) false
        = some ([.call], .ok (.val (ids.foldr .ok w))) := by
      cases payload with
      | none =>
        obtain rfl : w = .none := by
          cases w with
          | none => rfl
          | _ => cases hw
        have hvalue : (wrap ids .newNone).eval (.returned none) false .none
            = some ([], .ok (.val (ids.foldr .ok .none))) := eval_wrap_val ids rfl
        simp [ResultCall.body, Expr.eval, Completion.evaluated, hvalue]
      | some t => exact eval_wrap_val ids rfl
    rw [ho, ResultCall.run, hbody]
  · rw [ho, ResultCall.run, body_thrown _ _ _ (e, _)]
    have hcase : (wrap ([] ++ pre) (.err id (okErr r id).2)).eval (.thrown e (0 + pre.length)) false e
        = some ([], .ok (.val (pre.foldr .ok (.err id e)))) := by
      refine eval_wrap_val _ ?_
      rw [Expr.eval, if_pos he]
    simp only [lookup_casesFrom, hcase]

/-! ## Exactly when nothing is lost -/

theorem importLines_eq (h : Chain r f.result ids payload) (hw : f.withWitResults = false)
    (ha : f.kind.isAsync = false) (hc : f.kind.isConstructor = false) (needsCleanup : Bool) :
    f.importLines r needsCleanup 0
      = (if needsCleanup then [Line.cleanup] else []) ++ nest r 0 1 0 false ids := by
  have ha' : ¬ f.kind.isAsync = true := by simp [ha]
  have hc' : ¬ f.kind.isConstructor = true := by simp [hc]
  rw [Func.importLines, if_neg ha', if_neg hc', results_eq h hw hc, hw, handleResultImport_eq]

theorem exportCall_eq (h : Chain r f.result ids payload) (hw : f.withWitResults = false)
    (ha : f.kind.isAsync = false) (hc : f.kind.isConstructor = false) :
    f.exportCall r = handleResultCall r false ids false := by
  rw [Func.exportCall, if_neg (by simp [hc]), results_eq h hw hc, hw, ha]

theorem lossless_of_sync (hw : f.withWitResults = false) (ha : f.kind.isAsync = false)
    (hc : f.kind.isConstructor = false) : f.Lossless r where
  imported ids payload v needsCleanup h hv := by
    have hlines := runLines_nest h 0 1 0 false (fun x => if x = 0 then some v else none) v []
      (fun _ => rfl) rfl hv
    rw [List.append_nil] at hlines
    rw [Func.runImport, importLines_eq h hw ha hc]
    cases needsCleanup with
    | true => simp [runLines, hlines]
    | false => exact hlines
  exported ids payload v needsCleanup h hv := by
    rw [Func.runExport, exportCall_eq h hw ha hc, ha, run_call h hv]
    rfl
  thrown ids payload h := by
    rw [Func.thrownLevels, importLines_eq h hw ha hc, List.range_eq_range']
    exact thrownLevels_nest ids 0 1 0 false
  cases ids payload h := by
    rw [exportCall_eq h hw ha hc, handleResultCall_eq h, List.range_eq_range']
    exact labels_casesFrom [] ids 0

theorem weight_ok {i : TypeId} {err : Option TypeRef} (h : r.types i = .result (some t) err) :
    r.weight t < r.weight (.id i) :=
  r.weight_lt_of h (by simp [TypeDefKind.components])

variable (r) in
theorem exists_chain (t : TypeRef) : ∃ ids payload, Chain r t ids payload := by
  induction hn : r.weight t using Nat.strongRecOn generalizing t with
  | _ n ih =>
    by_cases h : ∃ i ok err, t = .id i ∧ r.types i = .result ok err
    · obtain ⟨i, ok, err, rfl, hk⟩ := h
      cases ok with
      | none => exact ⟨_, _, .void i err hk⟩
      | some t =>
        obtain ⟨ids, payload, ht⟩ := ih _ (hn ▸ weight_ok hk) t rfl
        exact ⟨_, _, .nested i t err ids payload hk ht⟩
    · exact ⟨[], some t, .payload t fun i ok err ht hk => h ⟨i, ok, err, ht, hk⟩⟩

/-- A chain with a result in it has an error at the outermost level. -/
theorem exists_error {i : TypeId} {ok err : Option TypeRef} (hk : r.types i = .result ok err) :
    ∃ ids payload e, Chain r (.id i) ids payload ∧ IsValue r payload ids (.err i e) ∧
      outcome payload 0 ids (.err i e) = .thrown e 0 := by
  obtain ⟨ids, payload, h⟩ := exists_chain r (.id i)
  obtain ⟨e, he⟩ : ∃ e : Val, e.type = (okErr r i).2 := by
    cases hty : (okErr r i).2 with
    | none => exact ⟨.none, rfl⟩
    | some t => exact ⟨.obj t 0, rfl⟩
  refine ⟨ids, payload, e, h, ?_⟩
  cases h with
  | payload t ht => exact absurd hk (ht i ok err rfl)
  | void i err h => exact ⟨.inr ⟨e, rfl, he⟩, rfl⟩
  | nested i t err ids payload h ht => exact ⟨.inr ⟨e, rfl, he⟩, rfl⟩

/-- For functions that return results, nothing is lost exactly if they are neither async nor
constructors. -/
theorem lossless_iff (r : Resolve) (f : Func) (i : TypeId) (ok err : Option TypeRef)
    (hw : f.withWitResults = false) (ht : f.result = .id i) (hk : r.types i = .result ok err) :
    f.Lossless r ↔ f.kind.isAsync = false ∧ f.kind.isConstructor = false := by
  refine ⟨fun h => ?_, fun h => lossless_of_sync hw h.1 h.2⟩
  obtain ⟨ids, payload, e, hchain, hv, ho⟩ := exists_error hk
  have himport := h.imported ids payload _ false (ht ▸ hchain) hv
  rw [ho, Func.runImport] at himport
  refine ⟨Bool.eq_false_iff.mpr fun ha => ?_, Bool.eq_false_iff.mpr fun hc => ?_⟩
  · rw [Func.importLines, if_pos ha] at himport
    cases himport
  · have ha : ¬ f.kind.isAsync = true := by
      cases hkind : f.kind <;> simp_all [FunctionKind.isConstructor, FunctionKind.isAsync]
    rw [Func.importLines, if_neg ha, if_pos hc] at himport
    cases himport

/-- `result<u32, string>`, and a result of that with no error type. -/
def nestedResult : Resolve where
  types
    | 0 => .result (some (.prim .u32)) (some .string)
    | 1 => .result (some (.id 0)) none
    | _ => .flags []
  rank i := i
  rank_lt := by
    intro i j h
    split at h <;> simp_all [TypeDefKind.components]
  known i := by
    split <;> simp

theorem nested_lossless : Func.Lossless nestedResult ⟨.freestanding, .id 1, false⟩ :=
  (lossless_iff nestedResult ⟨.freestanding, .id 1, false⟩ 1 _ _ rfl rfl rfl).mpr ⟨rfl, rfl⟩

/-- An async function that returns a `result<u32, string>`. -/
theorem async_result_lost :
    ¬ ∀ (r : Resolve) (f : Func), f.withWitResults = false →
      (∃ i ok err, f.result = .id i ∧ r.types i = .result ok err) → f.Lossless r := by
  intro h
  have hl := h nestedResult ⟨.asyncFreestanding, .id 0, false⟩ rfl ⟨0, _, _, rfl, rfl⟩
  have himport := hl.imported [0] (some (.prim .u32)) (.err 0 (.obj .string 0)) false
    (.nested 0 (.prim .u32) (some .string) [] _ rfl (.payload _ nofun)) (.inr ⟨_, rfl, rfl⟩)
  cases himport

end

end Results

end WitBindgen.CSharp
