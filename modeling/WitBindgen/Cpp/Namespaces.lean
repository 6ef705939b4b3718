import WitBindgen.C.Naming
import WitBindgen.Library.Scopes
import Mathlib.Tactic.Common

/-!
# C++ namespaces

`namespace` and `SourceWithState::qualify`: the types and functions of an interface or a
world are printed in a namespace of their own, and a name of another namespace is printed
with a qualifier that starts where the two namespaces part. What it denotes depends on all
the namespaces around the place it is printed at.
-/

namespace WitBindgen.Cpp

open C (toSnakeCase)

/-! ## Paths -/

abbrev Path := List String

/-- The keywords and names that `to_c_ident` escapes. -/
def escapedIdents : List String :=
  ["alignas", "alignof", "and", "and_eq", "asm", "atomic_cancel", "atomic_commit", "atomic_noexcept", "auto",
    "bitand", "bitor", "bool", "break", "case", "catch", "char", "char8_t", "char16_t", "char32_t", "class", "compl",
    "concept", "const", "consteval", "constexpr", "constinit", "const_cast", "continue", "co_await", "co_return",
    "co_yield", "decltype", "default", "delete", "do", "double", "dynamic_cast", "else", "enum", "explicit", "export",
    "extern", "false", "float", "for", "friend", "goto", "if", "inline", "int", "long", "mutable", "namespace", "new",
    "noexcept", "not", "not_eq", "nullptr", "operator", "or", "or_eq", "private", "protected", "public", "reflexpr",
    "register", "reinterpret_cast", "requires", "return", "short", "signed", "sizeof", "static", "static_assert",
    "static_cast", "struct", "switch", "synchronized", "template", "this", "thread_local", "throw", "true", "try",
    "typedef", "typeid", "typename", "union", "unsigned", "using", "virtual", "void", "volatile", "wchar_t", "while",
    "xor", "xor_eq", "_Packed", "ret", "err", "stdin", "stdout", "stderr"]

def toCIdent (name : String) : String := if name ∈ escapedIdents then name ++ "_" else toSnakeCase name

structure Package where
  nameSpace : String
  name : String
  /-- As it is written out. -/
  version : Option String
deriving DecidableEq

/-- An interface; `instance_` is the entry of `instance_names`. -/
structure Interface where
  package : Package
  name : Option String
  instance_ : Option String

inductive Owner where
  | world (name : String)
  | interface (interface : Interface)
  | none

/-- `name_package_module`. -/
def namePackageModule (packages : List Package) (package : Package) : String :=
  let base := toSnakeCase package.name
  if (packages.filter fun p => p.nameSpace = package.nameSpace ∧ p.name = package.name).length = 1 then base
  else
    match package.version with
    | none => base
    | some version => base ++ toSnakeCase (C.versionIdentifier version)

/-- `namespace`: `internalPrefix` is the option of that name. -/
def namespaceOf (internalPrefix : Option String) (packages : List Package) (owner : Owner) (guestExport : Bool) :
    Path :=
  internalPrefix.toList ++ (if guestExport then ["exports"] else []) ++
    match owner with
    | .world name => [toCIdent name]
    | .interface i =>
      match i.instance_ with
      | some name => [toCIdent name]
      | none =>
        [toCIdent i.package.nameSpace, toCIdent (namePackageModule packages i.package)] ++
          i.name.toList.map toCIdent
    | .none => []

/-! ## Qualifiers -/

/-- How many identifiers two paths begin with in common. -/
def same : Path → Path → Nat
  | a :: as, b :: bs => if a = b then same as bs + 1 else 0
  | _, _ => 0

/-- A qualifier as it is printed: a leading `::`, and identifiers with `::` behind each. -/
structure Qualifier where
  absolute : Bool
  idents : List String
deriving DecidableEq

/-- When the qualifier starts at the root. -/
def startsAtRoot (cur target : Path) : Bool :=
  same cur target = 0 ∧
    ∃ first ∈ target.head?, first ∈ cur ∨ cur.head? = some "exports" ∧ first ≠ "exports"

/-- `SourceWithState::qualify`, with `cur` the current namespace. -/
def qualify (cur target : Path) : Qualifier where
  absolute := startsAtRoot cur target
  idents :=
    if same cur target = target.length ∧ cur.length ≠ target.length ∧ 0 < same cur target then
      -- namespace is parent, qualify at least one namespace (and cross fingers)
      target[same cur target - 1]?.toList
    else target.drop (same cur target)

/-! ## What a name denotes -/

/-- The namespaces generated for a world. -/
structure Generated where
  internalPrefix : Option String
  packages : List Package
  /-- What has a namespace, and whether it is exported. -/
  owners : List (Owner × Bool)

namespace Generated

variable (w : Generated)

def paths : List Path := w.owners.map fun o => namespaceOf w.internalPrefix w.packages o.1 o.2

def scopes : Scopes String where
  declared p := p ≠ [] ∧ w.paths.any fun t => p.isPrefixOf t
  enclosing p q hp h := by
    simp only [decide_eq_true_eq, List.any_eq_true, List.isPrefixOf_iff_prefix] at h ⊢
    obtain ⟨-, t, ht, hpq⟩ := h
    exact ⟨hp, t, ht, (List.prefix_append p q).trans hpq⟩

/-- The namespace of what a qualifier with a name behind it denotes at a place in `cur`;
`names` are the names that each namespace has. -/
def denotes (names : Path → String → Bool) (cur : Path) (q : Qualifier) (name : String) : Option Path :=
  if q.absolute then if w.scopes.declared q.idents ∧ names q.idents name then some q.idents else none
  else
    match q.idents with
    | [] => innermost (fun p => names p name) cur cur.length
    | first :: rest => (w.scopes.resolve cur first rest).filter fun p => names p name

end Generated

/-! ## Where the paths part -/

theorem same_spec (cur target : Path) :
    same cur target ≤ cur.length ∧ same cur target ≤ target.length ∧
      cur.take (same cur target) = target.take (same cur target) := by
  induction cur generalizing target with
  | nil => simp [same]
  | cons a cur ih =>
    cases target with
    | nil => simp [same]
    | cons b target =>
      obtain ⟨hcur, htarget, htake⟩ := ih target
      rw [same]
      split
      · rename_i hab
        subst hab
        simp [hcur, htarget, htake]
      · simp

theorem same_self (cur : Path) : same cur cur = cur.length := by
  induction cur with
  | nil => rfl
  | cons a cur ih => rw [same, if_pos rfl, ih, List.length_cons]

/-- How deep the first identifier that is printed is meant. -/
def pivot (cur target : Path) : Nat :=
  if same cur target = target.length then same cur target - 1 else same cur target

section

variable {cur target : Path}

variable (cur) in
theorem pivot_spec (htarget : target ≠ []) :
    pivot cur target < target.length ∧ pivot cur target ≤ cur.length ∧
      cur.take (pivot cur target) = target.take (pivot cur target) := by
  obtain ⟨hcur, hlen, htake⟩ := same_spec cur target
  have hpos : 0 < target.length := List.length_pos_of_ne_nil htarget
  rw [pivot]
  split
  · refine ⟨by omega, by omega, ?_⟩
    have hpart := congrArg (List.take (same cur target - 1)) htake
    rwa [List.take_take, List.take_take, Nat.min_eq_left (by omega)] at hpart
  · exact ⟨by omega, hcur, htake⟩

/-- The identifiers that are printed are those from the pivot on. -/
theorem qualify_idents (htarget : target ≠ []) (hne : cur ≠ target) :
    (qualify cur target).idents = target.drop (pivot cur target) := by
  obtain ⟨hcur, hlen, htake⟩ := same_spec cur target
  have hpos : 0 < target.length := List.length_pos_of_ne_nil htarget
  rw [qualify, pivot]
  dsimp only
  by_cases hsame : same cur target = target.length
  · have hlonger : cur.length ≠ target.length := fun h => hne (by
      rw [hsame, ← h, List.take_length, h, List.take_length] at htake
      exact htake)
    have hlast : target.length - 1 < target.length := by omega
    rw [if_pos ⟨hsame, hlonger, by omega⟩, if_pos hsame, hsame, List.getElem?_eq_getElem hlast,
      List.drop_eq_getElem_cons hlast, List.drop_eq_nil_of_le (by omega)]
    rfl
  · rw [if_neg fun h => hsame h.1, if_neg hsame]

theorem qualify_self : (qualify cur cur).idents = [] := by
  rw [qualify]
  simp [same_self]

theorem startsAtRoot_idents (h : startsAtRoot cur target = true) : (qualify cur target).idents = target := by
  rw [startsAtRoot, decide_eq_true_eq] at h
  obtain ⟨hsame, first, hfirst, -⟩ := h
  have htarget : target ≠ [] := by rintro rfl; exact nomatch hfirst
  have hne : cur ≠ target := by
    rintro rfl
    rw [same_self] at hsame
    exact htarget (List.eq_nil_of_length_eq_zero hsame)
  rw [qualify_idents htarget hne, pivot, hsame, if_neg, List.drop_zero]
  exact fun h0 => htarget (List.eq_nil_of_length_eq_zero h0.symm)

end

/-! ## Captured names -/

namespace Generated

variable (w : Generated)

/-- The qualifier starts at the root, or there is none to print, or no namespace around the
place and deeper than where the paths part has the first identifier that is printed. -/
def Unshadowed (cur target : Path) : Prop :=
  startsAtRoot cur target = true ∨ cur = target ∨
    ∀ first ∈ target[pivot cur target]?, ¬w.scopes.Shadowed cur first (pivot cur target)

/-- A name of a generated namespace is denoted by its qualified form exactly if no inner
namespace captures the first identifier. -/
theorem qualify_denotes_iff (names : Path → String → Bool) {cur target : Path} {name : String}
    (htarget : w.scopes.declared target = true) (hname : names target name = true) :
    w.denotes names cur (qualify cur target) name = some target ↔ w.Unshadowed cur target := by
  have hnil : target ≠ [] := by
    rintro rfl
    simp [scopes] at htarget
  have habsolute : (qualify cur target).absolute = startsAtRoot cur target := rfl
  rw [denotes, habsolute, Unshadowed]
  by_cases hroot : startsAtRoot cur target = true
  · simp [hroot, startsAtRoot_idents hroot, htarget, hname]
  · rw [if_neg hroot]
    by_cases hself : cur = target
    · subst hself
      have hhere : innermost (fun p => names p name) cur cur.length = some (cur.take cur.length) :=
        innermost_here (by rwa [List.take_length])
      rw [qualify_self]
      simp [hhere]
    · obtain ⟨hlt, hle, htake⟩ := pivot_spec cur hnil
      have hfirst : target[pivot cur target]? = some target[pivot cur target] := List.getElem?_eq_getElem hlt
      have hsplit : cur.take (pivot cur target) ++ target[pivot cur target] :: target.drop (pivot cur target + 1) =
          target := by
        rw [htake, ← List.drop_eq_getElem_cons hlt, List.take_append_drop]
      have hdeclared : w.scopes.declared (cur.take (pivot cur target) ++ target[pivot cur target] ::
          target.drop (pivot cur target + 1)) = true := by rwa [hsplit]
      have hresolve := w.scopes.resolve_eq_iff hle hdeclared
      rw [hsplit] at hresolve
      rw [qualify_idents hnil hself, List.drop_eq_getElem_cons hlt]
      simp only [hroot, hself, hfirst, Option.mem_def, Option.some.injEq, forall_eq', false_or,
        Bool.false_eq_true, Option.filter_eq_some_iff, hname, and_true]
      exact hresolve

end Generated

/-- Interface `c` of the package `a:b`, which has the name of the package `a:c` with the interface `d`. -/
def capturing : Generated where
  internalPrefix := none
  packages := [⟨"a", "b", none⟩, ⟨"a", "c", none⟩]
  owners := [(.interface ⟨⟨"a", "b", none⟩, some "c", none⟩, false),
    (.interface ⟨⟨"a", "c", none⟩, some "d", none⟩, false)]

/-- Within `a::b::c` a name of `a::c::d` is printed with `c::d::`, and there `c` is `a::b::c`. -/
theorem qualifier_captured :
    ["a", "b", "c"] ∈ capturing.paths ∧ ["a", "c", "d"] ∈ capturing.paths ∧
      capturing.denotes (fun _ _ => true) ["a", "b", "c"] (qualify ["a", "b", "c"] ["a", "c", "d"]) "T" ≠
        some ["a", "c", "d"] := by
  decide +kernel

/-- Within `a::c::d` nothing hides `b`. -/
theorem qualify_denotes_capturing :
    capturing.denotes (fun _ _ => true) ["a", "c", "d"] (qualify ["a", "c", "d"] ["a", "b", "c"]) "T" =
        some ["a", "b", "c"] ↔
      capturing.Unshadowed ["a", "c", "d"] ["a", "b", "c"] :=
  capturing.qualify_denotes_iff _ (by decide +kernel) rfl

end WitBindgen.Cpp
