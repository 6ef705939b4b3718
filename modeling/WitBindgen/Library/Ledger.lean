import Mathlib.Tactic.Common

/-!
# Ledgers of things disposed of

Things are numbered as they come into being. A ledger is right when each of the
first `n` things either is live and was never disposed of, or was disposed of
exactly once.
-/

/-- `live` says which things there are, `log` how often each was disposed of. -/
structure Ledger (live : Nat → Prop) (log : Nat → Nat) (n : Nat) : Prop where
  kept : ∀ i, live i → i < n ∧ log i = 0
  gone : ∀ i, i < n → ¬ live i → log i = 1
  unborn : ∀ i, n ≤ i → log i = 0

namespace Ledger

variable {live live' : Nat → Prop} {log log' : Nat → Nat} {n : Nat}

theorem empty : Ledger (fun _ => False) (fun _ => 0) 0 where
  kept _ h := h.elim
  gone _ h _ := absurd h (Nat.not_lt_zero _)
  unborn _ _ := rfl

variable (h : Ledger live log n)
include h

theorem congr (hlive : ∀ i, live' i ↔ live i) (hlog : ∀ i, log' i = log i) :
    Ledger live' log' n where
  kept i hi := by
    rw [hlog]
    exact h.kept i ((hlive i).mp hi)
  gone i hlt hi := by
    rw [hlog]
    exact h.gone i hlt fun hl => hi ((hlive i).mpr hl)
  unborn i hle := by
    rw [hlog]
    exact h.unborn i hle

/-- The next thing. -/
theorem create (hlive : ∀ i, live' i ↔ live i ∨ i = n) : Ledger live' log (n + 1) where
  kept i hi := by
    rcases (hlive i).mp hi with hi | rfl
    · exact ⟨Nat.lt_succ_of_lt (h.kept i hi).1, (h.kept i hi).2⟩
    · exact ⟨Nat.lt_succ_self _, h.unborn _ (Nat.le_refl _)⟩
  gone i hlt hi := by
    have hne : i ≠ n := fun heq => hi ((hlive i).mpr (Or.inr heq))
    exact h.gone i (by omega) fun hl => hi ((hlive i).mpr (Or.inl hl))
  unborn i hle := h.unborn i (by omega)

/-- A live thing is disposed of. -/
theorem dispose {j : Nat} (hj : live j) (hlive : ∀ i, live' i ↔ live i ∧ i ≠ j)
    (hlog : ∀ i, log' i = log i + if i = j then 1 else 0) : Ledger live' log' n where
  kept i hi := by
    obtain ⟨hi, hne⟩ := (hlive i).mp hi
    rw [hlog, if_neg hne]
    exact h.kept i hi
  gone i hlt hi := by
    rw [hlog]
    by_cases heq : i = j
    · subst heq
      rw [if_pos rfl, (h.kept i hj).2]
    · rw [if_neg heq]
      exact h.gone i hlt fun hl => hi ((hlive i).mpr ⟨hl, heq⟩)
  unborn i hle := by
    have hne : i ≠ j := by
      rintro rfl
      exact absurd (h.kept i hj).1 (by omega)
    rw [hlog, if_neg hne]
    exact h.unborn i hle

end Ledger
