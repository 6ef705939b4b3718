import Mathlib.Data.List.Nodup
import Mathlib.Data.List.Perm.Subperm
import Mathlib.Tactic.Common

/-!
# Names in C

A name in snake case, the version of a package in an identifier, and `Ns`: the names
that are taken in a scope, from which `tmp` makes new ones.
-/

namespace WitBindgen.C

/-! ## Snake case -/

inductive WordMode where
  | boundary
  | lowercase
  | uppercase
deriving DecidableEq

/-- The words of a run of letters and digits: a capital letter after a small one begins
a word, and so does the last of several capitals before a small one. `word` is what the
current word has so far. -/
def scanWords (mode : WordMode) (word : List Char) : List Char → List (List Char)
  | [] => []
  | [c] => [word ++ [c]]
  | c :: next :: rest =>
    let nextMode := if c.isLower then .lowercase else if c.isUpper then .uppercase else mode
    if nextMode = .lowercase ∧ next.isUpper then (word ++ [c]) :: scanWords .boundary [] (next :: rest)
    else if mode = .uppercase ∧ c.isUpper ∧ next.isLower then word :: scanWords .boundary [c] (next :: rest)
    else scanWords nextMode (word ++ [c]) (next :: rest)

/-- The words of a name in small letters; nothing but letters and digits is in a word. -/
def words (s : String) : List String :=
  ((s.toList.splitOnP fun c => !c.isAlphanum).flatMap (scanWords .boundary [])).map fun w =>
    String.ofList (w.map Char.toLower)

def toSnakeCase (s : String) : String := "_".intercalate (words s)

/-- `str::replace` of single characters. -/
def replaceChars (f : Char → Char) (s : String) : String := String.ofList (s.toList.map f)

/-- A version in an identifier: an underscore for `.`, `-` and `+`. -/
def versionIdentifier (version : String) : String :=
  version |> replaceChars fun c => if c = '.' ∨ c = '-' ∨ c = '+' then '_' else c

/-! ## Symbols -/

/-- `Ns`: the names that are taken, and a counter. -/
structure Ns where
  defined : List String
  tmp : Nat

namespace Ns

def empty : Ns := ⟨[], 0⟩

def insert (ns : Ns) (name : String) : Except String Ns :=
  if name ∈ ns.defined then .error "duplicate symbols" else .ok { ns with defined := name :: ns.defined }

/-- The first of `ret`, `name0`, `name1` and so on that is not taken. -/
def search (ns : Ns) (name : String) : Nat → String → Nat → String × Nat
  | 0, ret, tmp => (ret, tmp)
  | n + 1, ret, tmp =>
    if ret ∈ ns.defined then ns.search name n (name ++ toString tmp) (tmp + 1) else (ret, tmp)

def tmpName (ns : Ns) (name : String) : String × Ns :=
  let (ret, tmp) := ns.search name (ns.defined.length + 1) name ns.tmp
  (ret, ⟨ret :: ns.defined, tmp⟩)

end Ns

theorem toString_inj {m n : Nat} (h : toString m = toString n) : m = n := by
  have hdigits : Nat.toDigits 10 m = Nat.toDigits 10 n := by
    rw [← Nat.toList_repr, ← Nat.toList_repr]
    exact congrArg String.toList h
  rw [← Nat.ofDigitChars_toDigits (b := 10) (n := m) (by decide) (by decide), hdigits,
    Nat.ofDigitChars_toDigits (by decide) (by decide)]

/-- The search fails only where it has seen nothing but names that are taken. -/
theorem search_spec (ns : Ns) (name : String) (n : Nat) (ret : String) (k : Nat) :
    (ns.search name n ret k).1 ∉ ns.defined ∨
      ret :: (List.range' k n).map (fun i => name ++ toString i) ⊆ ns.defined := by
  induction n generalizing ret k with
  | zero =>
    by_cases hret : ret ∈ ns.defined
    · exact Or.inr fun x hx => by rwa [List.mem_singleton.mp hx]
    · exact Or.inl hret
  | succ n ih =>
    rw [Ns.search]
    split
    · rename_i hret
      rcases ih (name ++ toString k) (k + 1) with h | h
      · exact Or.inl h
      · refine Or.inr fun x hx => ?_
        rcases List.mem_cons.mp hx with rfl | hx
        · exact hret
        · rw [List.range'_succ, List.map_cons] at hx
          exact h hx
    · rename_i hret
      exact Or.inl hret

theorem tmpName_fresh (ns : Ns) (name : String) : (ns.tmpName name).1 ∉ ns.defined := by
  have hspec := search_spec ns name (ns.defined.length + 1) name ns.tmp
  rcases hspec with h | h
  · exact h
  · -- more names than are taken
    exfalso
    have hnodup : (name :: (List.range' ns.tmp (ns.defined.length + 1)).map
        (fun i => name ++ toString i)).Nodup := by
      refine List.nodup_cons.mpr ⟨fun hmem => ?_, List.Nodup.map (fun a b hab => ?_) List.nodup_range'⟩
      · obtain ⟨i, -, hi⟩ := List.mem_map.mp hmem
        have hlen := congrArg (fun s : String => s.toList.length) hi
        simp only [String.toList_append, List.length_append, Nat.add_eq_left, List.length_eq_zero_iff] at hlen
        exact Nat.toDigits_ne_nil (Nat.toList_repr.symm.trans hlen)
      · have hlist := congrArg String.toList hab
        simp only [String.toList_append, List.append_cancel_left_eq] at hlist
        exact toString_inj (String.toList_inj.mp hlist)
    have hle := (List.subperm_of_subset hnodup h).length_le
    simp only [List.length_cons, List.length_map, List.length_range'] at hle
    omega

end WitBindgen.C
