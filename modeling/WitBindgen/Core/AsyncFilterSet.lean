import WitBindgen.Wit.Parser
import Mathlib.Data.List.Basic
import Mathlib.Data.Finset.Insert

/-!
# Async filters

`AsyncFilterSet` of `async_.rs`: the directives given with `--async`, asked once for every
function that is bound. The first directive that matches decides, and is noted as used; a
directive that no function used is an error at the end. The directives are printed into the
generated code as they were given.
-/

namespace WitBindgen.Core

/-! ## Directives -/

/-- `str::strip_prefix`. -/
def stripPrefix (s start : String) : Option String :=
  (s.toList.dropPrefix? start.toList).map String.ofList

inductive AsyncFilter where
  | all
  | function (s : String)
  | import_ (s : String)
  | export_ (s : String)
deriving DecidableEq

structure Async where
  enabled : Bool
  filter : AsyncFilter
deriving DecidableEq

def Async.parse (s : String) : Async :=
  let (s, enabled) :=
    match stripPrefix s "-" with
    | some s => (s, false)
    | none => (s, true)
  let filter :=
    if s = "all" then .all
    else
      match stripPrefix s "import:" with
      | some s => .import_ s
      | none =>
        match stripPrefix s "export:" with
        | some s => .export_ s
        | none => .function s
  ⟨enabled, filter⟩

/-- `Display` of `AsyncFilter`. -/
def AsyncFilter.display : AsyncFilter → String
  | all => "all"
  | function s => s
  | import_ s => "import:" ++ s
  | export_ s => "export:" ++ s

/-- `Display` of `Async`. -/
def Async.display (opt : Async) : String :=
  (if opt.enabled then "" else "-") ++ opt.filter.display

theorem stripPrefix_eq_some {s start rest : String} (h : stripPrefix s start = some rest) :
    start ++ rest = s := by
  unfold stripPrefix at h
  obtain ⟨cs, hcs, rfl⟩ := Option.map_eq_some_iff.mp h
  obtain ⟨p, hs, hp⟩ := List.dropPrefix?_eq_some_iff.mp hcs
  rw [eq_of_beq hp] at hs
  rw [← String.toList_inj, String.toList_append, String.toList_ofList, hs]

/-- Directives are printed as they were given. -/
theorem Async.display_parse (s : String) : (parse s).display = s := by
  have hfilter : ∀ s : String, AsyncFilter.display (if s = "all" then .all
      else match stripPrefix s "import:" with
        | some s => .import_ s
        | none => match stripPrefix s "export:" with
          | some s => .export_ s
          | none => .function s) = s := by
    intro s
    split
    · next h => exact h.symm
    · split
      · next h => exact stripPrefix_eq_some h
      · split
        · next h => exact stripPrefix_eq_some h
        · rfl
  unfold parse display
  cases hminus : stripPrefix s "-" with
  | some rest =>
    dsimp only
    rw [hfilter]
    exact stripPrefix_eq_some hminus
  | none =>
    dsimp only
    rw [hfilter]
    exact String.empty_append

/-! ## The set -/

structure AsyncFilterSet where
  async_ : List Async
  usedOptions : Finset Nat

namespace AsyncFilterSet

/-- As it comes from the command line. -/
def new (opts : List Async) : AsyncFilterSet := ⟨opts, ∅⟩

def all (async_ : Bool) : AsyncFilterSet := new [⟨async_, .all⟩]

def push (set : AsyncFilterSet) (directive : String) : AsyncFilterSet :=
  { set with async_ := set.async_ ++ [Async.parse directive] }

def debugOpts (set : AsyncFilterSet) : List String := set.async_.map Async.display

/-- One function that is bound. -/
structure Query (κ : Type) where
  interface : Option κ
  func : Function
  isImport : Bool

section
variable {κ : Type} (nameWorldKey : κ → String)

/-- `name_to_test`. -/
def Query.nameToTest (q : Query κ) : String :=
  match q.interface with
  | some key => nameWorldKey key ++ "#" ++ q.func.name
  | none => q.func.name

/-- What the WIT itself says of the function. -/
def Query.declaredAsync (q : Query κ) : Bool :=
  match q.func.kind with
  | .freestanding | .method _ | .static _ | .constructor _ => false
  | .asyncFreestanding | .asyncMethod _ | .asyncStatic _ => true

/-- The loop over the options from the `i`-th on. -/
def isAsyncFrom (nameToTest : String) (isImport declared : Bool) :
    Nat → List Async → Finset Nat → Bool × Finset Nat
  | _, [], used => (declared, used)
  | i, opt :: rest, used =>
    let continue_ := isAsyncFrom nameToTest isImport declared (i + 1) rest used
    let compare (s : String) := if s = nameToTest then (opt.enabled, insert i used) else continue_
    match opt.filter with
    | .all => (opt.enabled, insert i used)
    | .function s => compare s
    | .import_ s => if !isImport then continue_ else compare s
    | .export_ s => if isImport then continue_ else compare s

def isAsync (set : AsyncFilterSet) (q : Query κ) : Bool × AsyncFilterSet :=
  let (answer, used) := isAsyncFrom (q.nameToTest nameWorldKey) q.isImport q.declaredAsync 0
    set.async_ set.usedOptions
  (answer, { set with usedOptions := used })

/-- The loop of `ensure_all_used` from the `i`-th option on. -/
def ensureAllUsedFrom (used : Finset Nat) : Nat → List Async → Except String Unit
  | _, [] => .ok ()
  | i, opt :: rest =>
    if i ∈ used then ensureAllUsedFrom used (i + 1) rest
    else if opt.filter ≠ .all then .error ("unused async option: " ++ opt.display)
    else ensureAllUsedFrom used (i + 1) rest

def ensureAllUsed (set : AsyncFilterSet) : Except String Unit :=
  ensureAllUsedFrom set.usedOptions 0 set.async_

/-- The answers to one query after the other, and the set after them. -/
def run : AsyncFilterSet → List (Query κ) → List Bool × AsyncFilterSet
  | set, [] => ([], set)
  | set, q :: qs =>
    let (answer, set) := isAsync nameWorldKey set q
    let (answers, set) := run set qs
    (answer :: answers, set)

/-! ## What the directives mean -/

/-- The directive names the function, as it is bound. -/
def Matches (opt : Async) (q : Query κ) : Prop :=
  match opt.filter with
  | .all => True
  | .function s => s = q.nameToTest nameWorldKey
  | .import_ s => q.isImport = true ∧ s = q.nameToTest nameWorldKey
  | .export_ s => q.isImport = false ∧ s = q.nameToTest nameWorldKey

/-- The `i`-th directive is the first that matches. -/
def Decides (opts : List Async) (q : Query κ) (i : Nat) : Prop :=
  (∃ opt, opts[i]? = some opt ∧ Matches nameWorldKey opt q) ∧
    ∀ j < i, ∀ opt, opts[j]? = some opt → ¬ Matches nameWorldKey opt q

/-- The answer is that of the directive that decides, or else what the WIT says. -/
def Answered (opts : List Async) (q : Query κ) (answer : Bool) : Prop :=
  (∃ i opt, Decides nameWorldKey opts q i ∧ opts[i]? = some opt ∧ answer = opt.enabled) ∨
    (∀ opt ∈ opts, ¬ Matches nameWorldKey opt q) ∧ answer = q.declaredAsync

variable {opts : List Async} {q : Query κ} {used : Finset Nat}

theorem decides_cons (opt : Async) (i : Nat) (h : ¬ Matches nameWorldKey opt q) :
    Decides nameWorldKey (opt :: opts) q (i + 1) ↔ Decides nameWorldKey opts q i := by
  constructor
  · rintro ⟨hopt, hfirst⟩
    exact ⟨hopt, fun j hj => hfirst (j + 1) (Nat.succ_lt_succ hj)⟩
  · rintro ⟨hopt, hfirst⟩
    refine ⟨hopt, fun j hj => ?_⟩
    cases j with
    | zero =>
      rintro o ho
      injection ho with ho
      exact ho ▸ h
    | succ j => exact hfirst j (Nat.lt_of_succ_lt_succ hj)

/-- An option that matches ends the loop; another one is passed over. -/
theorem isAsyncFrom_cons (opt : Async) (i : Nat) :
    (Matches nameWorldKey opt q ∧
      isAsyncFrom (q.nameToTest nameWorldKey) q.isImport q.declaredAsync i (opt :: opts) used =
        (opt.enabled, insert i used)) ∨
    (¬ Matches nameWorldKey opt q ∧
      isAsyncFrom (q.nameToTest nameWorldKey) q.isImport q.declaredAsync i (opt :: opts) used =
        isAsyncFrom (q.nameToTest nameWorldKey) q.isImport q.declaredAsync (i + 1) opts used) := by
  rw [isAsyncFrom]
  unfold Matches
  cases opt.filter with
  | all => exact Or.inl ⟨trivial, rfl⟩
  | function s =>
    by_cases h : s = q.nameToTest nameWorldKey
    · exact Or.inl ⟨h, if_pos h⟩
    · exact Or.inr ⟨h, if_neg h⟩
  | import_ s =>
    cases hdir : q.isImport with
    | false => exact Or.inr ⟨fun h => (nomatch h.1), rfl⟩
    | true =>
      by_cases h : s = q.nameToTest nameWorldKey
      · exact Or.inl ⟨⟨rfl, h⟩, if_pos h⟩
      · exact Or.inr ⟨fun hm => h hm.2, if_neg h⟩
  | export_ s =>
    cases hdir : q.isImport with
    | true => exact Or.inr ⟨fun h => (nomatch h.1), rfl⟩
    | false =>
      by_cases h : s = q.nameToTest nameWorldKey
      · exact Or.inl ⟨⟨rfl, h⟩, if_pos h⟩
      · exact Or.inr ⟨fun hm => h hm.2, if_neg h⟩

theorem decides_zero (opt : Async) (h : Matches nameWorldKey opt q) (i : Nat) :
    Decides nameWorldKey (opt :: opts) q i ↔ i = 0 := by
  constructor
  · rintro ⟨-, hfirst⟩
    by_contra hi
    exact hfirst 0 (Nat.pos_of_ne_zero hi) opt rfl h
  · rintro rfl
    exact ⟨⟨opt, rfl, h⟩, fun j hj => absurd hj (Nat.not_lt_zero j)⟩

/-- The loop answers by the first directive that matches, and notes that one. -/
theorem isAsyncFrom_spec (opts : List Async) (q : Query κ) (used : Finset Nat) (i : Nat) :
    Answered nameWorldKey opts q
        (isAsyncFrom (q.nameToTest nameWorldKey) q.isImport q.declaredAsync i opts used).1 ∧
      ∀ k, k ∈ (isAsyncFrom (q.nameToTest nameWorldKey) q.isImport q.declaredAsync i opts used).2 ↔
        k ∈ used ∨ ∃ j, k = i + j ∧ Decides nameWorldKey opts q j := by
  induction opts generalizing i with
  | nil =>
    refine ⟨Or.inr ⟨fun opt hopt => (nomatch hopt), rfl⟩, fun k => ?_⟩
    constructor
    · exact Or.inl
    · rintro (h | ⟨j, -, ⟨opt, hopt, -⟩, -⟩)
      · exact h
      · cases hopt
  | cons opt opts ih =>
    rcases isAsyncFrom_cons nameWorldKey (q := q) opt i with ⟨hm, heq⟩ | ⟨hm, heq⟩
    · rw [heq]
      refine ⟨Or.inl ⟨0, opt, (decides_zero nameWorldKey opt hm 0).mpr rfl, rfl, rfl⟩, fun k => ?_⟩
      rw [Finset.mem_insert]
      constructor
      · rintro (hk | hk)
        · exact Or.inr ⟨0, hk, (decides_zero nameWorldKey opt hm 0).mpr rfl⟩
        · exact Or.inl hk
      · rintro (hk | ⟨j, hk, hj⟩)
        · exact Or.inr hk
        · rw [decides_zero nameWorldKey opt hm] at hj
          exact Or.inl (by rw [hk, hj]; rfl)
    · rw [heq]
      obtain ⟨hanswer, hused⟩ := ih (i + 1)
      refine ⟨?_, fun k => ?_⟩
      · rcases hanswer with ⟨j, o, hj, ho, ha⟩ | ⟨hnone, ha⟩
        · exact Or.inl ⟨j + 1, o, (decides_cons nameWorldKey opt j hm).mpr hj, ho, ha⟩
        · refine Or.inr ⟨fun o ho => ?_, ha⟩
          rcases List.mem_cons.mp ho with rfl | ho
          · exact hm
          · exact hnone o ho
      · rw [hused]
        constructor
        · rintro (hk | ⟨j, hk, hj⟩)
          · exact Or.inl hk
          · exact Or.inr ⟨j + 1, by omega, (decides_cons nameWorldKey opt j hm).mpr hj⟩
        · rintro (hk | ⟨j, hk, hj⟩)
          · exact Or.inl hk
          · cases j with
            | zero =>
              obtain ⟨⟨o, ho, hmo⟩, -⟩ := hj
              injection ho with ho
              exact absurd (ho ▸ hmo) hm
            | succ j => exact Or.inr ⟨j, by omega, (decides_cons nameWorldKey opt j hm).mp hj⟩

/-- Every query is answered by its directive, and the directives used are those that decided
one of the queries, next to those used before. -/
theorem run_spec (qs : List (Query κ)) (set : AsyncFilterSet) :
    (run nameWorldKey set qs).2.async_ = set.async_ ∧
      List.Forall₂ (Answered nameWorldKey set.async_) qs (run nameWorldKey set qs).1 ∧
      ∀ k, k ∈ (run nameWorldKey set qs).2.usedOptions ↔
        k ∈ set.usedOptions ∨ ∃ q ∈ qs, Decides nameWorldKey set.async_ q k := by
  induction qs generalizing set with
  | nil => exact ⟨rfl, .nil, fun k => by simp [run]⟩
  | cons q qs ih =>
    obtain ⟨hanswer, hused⟩ := isAsyncFrom_spec nameWorldKey set.async_ q
      set.usedOptions 0
    obtain ⟨hopts, hanswers, hrest⟩ := ih (isAsync nameWorldKey set q).2
    refine ⟨hopts, .cons hanswer hanswers, fun k => ?_⟩
    show k ∈ (run nameWorldKey (isAsync nameWorldKey set q).2 qs).2.usedOptions ↔ _
    rw [hrest]
    have hk : k ∈ (isAsync nameWorldKey set q).2.usedOptions ↔
        k ∈ set.usedOptions ∨ Decides nameWorldKey set.async_ q k := by
      show k ∈ (isAsyncFrom _ _ _ 0 set.async_ set.usedOptions).2 ↔ _
      rw [hused]
      simp
    rw [hk, or_assoc]
    simp only [List.mem_cons, exists_eq_or_imp]
    rfl

/-- Nothing but an unused directive other than `all` is an error. -/
theorem ensureAllUsedFrom_ok (opts : List Async) (used : Finset Nat) (i : Nat) :
    ensureAllUsedFrom used i opts = .ok () ↔
      ∀ j opt, opts[j]? = some opt → opt.filter ≠ .all → i + j ∈ used := by
  induction opts generalizing i with
  | nil => simp [ensureAllUsedFrom]
  | cons opt opts ih =>
    have hrest : (∀ j o, (opt :: opts)[j]? = some o → o.filter ≠ .all → i + j ∈ used) ↔
        (opt.filter ≠ .all → i ∈ used) ∧
          ∀ j o, opts[j]? = some o → o.filter ≠ .all → i + 1 + j ∈ used := by
      constructor
      · intro h
        refine ⟨h 0 opt rfl, fun j o ho hf => ?_⟩
        have hj := h (j + 1) o ho hf
        rwa [Nat.add_comm j 1, ← Nat.add_assoc] at hj
      · rintro ⟨hhead, htail⟩ j o ho hf
        cases j with
        | zero =>
          injection ho with ho
          exact hhead (ho ▸ hf)
        | succ j =>
          have hj := htail j o ho hf
          rwa [Nat.add_assoc, Nat.add_comm 1 j] at hj
    rw [hrest, ← ih, ensureAllUsedFrom]
    split
    · next hi => exact ⟨fun h => ⟨fun _ => hi, h⟩, fun h => h.2⟩
    · next hi =>
        split
        · next hf => exact ⟨fun h => (nomatch h), fun h => absurd (h.1 hf) hi⟩
        · next hf => exact ⟨fun h => ⟨fun hf' => absurd hf' hf, h⟩, fun h => h.2⟩

/-- Queries are answered by the first directive that matches, or else as the WIT says; the set
is all used just when every directive other than `all` and `-all` decided a query; and a
directive is printed as what it was parsed from. -/
theorem async_filters (opts : List Async) (qs : List (Query κ)) :
    List.Forall₂ (Answered nameWorldKey opts) qs (run nameWorldKey (new opts) qs).1 ∧
    ((run nameWorldKey (new opts) qs).2.ensureAllUsed = .ok () ↔
      ∀ i opt, opts[i]? = some opt → opt.filter ≠ .all →
        ∃ q ∈ qs, Decides nameWorldKey opts q i) ∧
    ∀ s, Async.parse (Async.parse s).display = Async.parse s := by
  obtain ⟨hopts, hanswers, hused⟩ := run_spec nameWorldKey qs (new opts)
  refine ⟨hanswers, ?_, fun s => by rw [Async.display_parse]⟩
  unfold ensureAllUsed
  rw [hopts, ensureAllUsedFrom_ok]
  have hiff : ∀ i, i ∈ (run nameWorldKey (new opts) qs).2.usedOptions ↔
      ∃ q ∈ qs, Decides nameWorldKey opts q i := by
    intro i
    rw [hused]
    constructor
    · rintro (h | h)
      · cases h
      · exact h
    · exact Or.inr
  simp only [Nat.zero_add, hiff]
  rfl

end

end AsyncFilterSet

end WitBindgen.Core
