import Mathlib.Data.List.Basic
import Mathlib.Tactic.Common

/-!
# Nested scopes

Scopes that are nested in each other are paths of identifiers. A qualified name is looked
up in two steps: its first identifier in the current scope and then in the scopes around
it, the rest inside the scope that this finds. An inner scope of the same name is found
before the one that is meant.
-/

/-- The innermost scope with something in it, of the scope `n` identifiers deep and the ones
around it. -/
def innermost {α : Type} (has : List α → Bool) (cur : List α) : Nat → Option (List α)
  | 0 => if has [] then some [] else none
  | n + 1 => if has (cur.take (n + 1)) then some (cur.take (n + 1)) else innermost has cur n

section

variable {α : Type} {has : List α → Bool} {cur : List α} {n : Nat}

theorem innermost_here (h : has (cur.take n) = true) : innermost has cur n = some (cur.take n) := by
  cases n with
  | zero => exact if_pos h
  | succ n => exact if_pos h

/-- Scopes that do not have it are passed. -/
theorem innermost_skip {m : Nat} (hnm : n ≤ m) (h : ∀ k, n < k → k ≤ m → has (cur.take k) = false) :
    innermost has cur m = innermost has cur n := by
  induction m with
  | zero => rw [Nat.le_zero.mp hnm]
  | succ m ih =>
    rcases Nat.lt_or_ge m n with hlt | hle
    · rw [show n = m + 1 by omega]
    · rw [innermost, h (m + 1) (by omega) (Nat.le_refl _), if_neg Bool.false_ne_true]
      exact ih hle fun k hk hkm => h k hk (Nat.le_succ_of_le hkm)

theorem innermost_some {p : List α} (h : innermost has cur n = some p) :
    ∃ k ≤ n, p = cur.take k ∧ ∀ m, k < m → m ≤ n → has (cur.take m) = false := by
  induction n with
  | zero =>
    rw [innermost] at h
    split at h
    · exact ⟨0, Nat.le_refl _, (Option.some.inj h).symm, fun m hm hm' => absurd hm' (by omega)⟩
    · exact nomatch h
  | succ n ih =>
    rw [innermost] at h
    split at h
    · exact ⟨n + 1, Nat.le_refl _, (Option.some.inj h).symm, fun m hm hm' => absurd hm' (by omega)⟩
    · rename_i hnot
      obtain ⟨k, hk, hp, hpassed⟩ := ih h
      refine ⟨k, Nat.le_succ_of_le hk, hp, fun m hm hm' => ?_⟩
      rcases Nat.lt_or_ge n m with hlt | hle
      · rw [show m = n + 1 by omega]
        exact Bool.eq_false_iff.mpr hnot
      · exact hpassed m hm hle

end

/-- A set of scopes with every scope around each of them. -/
structure Scopes (α : Type) where
  declared : List α → Bool
  enclosing : ∀ p q, p ≠ [] → declared (p ++ q) = true → declared p = true

namespace Scopes

variable {α : Type} (S : Scopes α) {cur rest : List α} {i : α} {n : Nat}

/-- Unqualified lookup of a scope. -/
def lookup (cur : List α) (i : α) : Option (List α) :=
  (innermost (fun p => S.declared (p ++ [i])) cur cur.length).map (· ++ [i])

/-- Where a relative name leads: first `i`, then what is nested in it. -/
def resolve (cur : List α) (i : α) (rest : List α) : Option (List α) :=
  match S.lookup cur i with
  | some p => if S.declared (p ++ rest) then some (p ++ rest) else none
  | none => none

/-- A scope deeper than `n` has an inner scope named `i`. -/
def Shadowed (cur : List α) (i : α) (n : Nat) : Prop :=
  ∃ m, n < m ∧ m ≤ cur.length ∧ S.declared (cur.take m ++ [i]) = true

/-- A name that is meant `n` identifiers deep leads to its target exactly if no deeper scope
has its first identifier. -/
theorem resolve_eq_iff (hn : n ≤ cur.length) (htarget : S.declared (cur.take n ++ i :: rest) = true) :
    S.resolve cur i rest = some (cur.take n ++ i :: rest) ↔ ¬S.Shadowed cur i n := by
  have hfirst : S.declared (cur.take n ++ [i]) = true :=
    S.enclosing _ rest (by simp) (by rwa [List.append_assoc])
  constructor
  · rintro h ⟨m, hnm, hm, hshadow⟩
    rw [resolve, lookup] at h
    cases hfound : innermost (fun p => S.declared (p ++ [i])) cur cur.length with
    | none =>
      rw [hfound] at h
      exact nomatch h
    | some p =>
      obtain ⟨k, hk, rfl, hpassed⟩ := innermost_some hfound
      rw [hfound] at h
      dsimp only [Option.map_some] at h
      split at h
      · have hlen := congrArg List.length (Option.some.inj h)
        simp only [List.length_append, List.length_take, List.length_cons, List.length_nil] at hlen
        rw [hpassed m (by omega) hm] at hshadow
        exact nomatch hshadow
      · exact nomatch h
  · intro h
    have hfound : innermost (fun p => S.declared (p ++ [i])) cur cur.length = some (cur.take n) :=
      (innermost_skip hn fun k hk hkl => Bool.eq_false_iff.mpr fun hd => h ⟨k, hk, hkl, hd⟩).trans
        (innermost_here hfirst)
    rw [resolve, lookup, hfound]
    dsimp only [Option.map_some]
    rw [List.append_assoc, List.singleton_append, if_pos htarget]

end Scopes
