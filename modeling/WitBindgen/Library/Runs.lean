import Mathlib.Algebra.Group.Int.Defs
import Mathlib.Algebra.GroupWithZero.Nat
import Mathlib.Tactic.Common

/-!
# Runs of a system of events

A system has initial states, a guard that says which events its environment may
send to a state, and a function that handles an event or panics. A state is
reachable when allowed events lead to it from an initial one. Invariants are
proved by one lemma on a single event.
-/

/-- A state with what the environment may send to it and how it reacts. -/
structure System (σ ι ε : Type) where
  init : σ → Prop
  allowed : σ → ι → Prop
  exec : σ → ι → Except ε σ

namespace System

variable {σ ι ε : Type} {S : System σ ι ε} {I : σ → Prop} {s s' : σ}

variable (S) in
inductive Reachable : σ → Prop
  | init (s : σ) (h : S.init s) : Reachable s
  | step (s s' : σ) (i : ι) (h : Reachable s) (ha : S.allowed s i) (he : S.exec s i = .ok s') :
      Reachable s'

variable (S) in
/-- Kept by every allowed event. -/
def Preserves (I : σ → Prop) : Prop :=
  ∀ s i s', I s → S.allowed s i → S.exec s i = .ok s' → I s'

theorem Reachable.invariant (hinit : ∀ s, S.init s → I s) (hstep : S.Preserves I)
    (h : S.Reachable s) : I s := by
  induction h with
  | init s h => exact hinit s h
  | step s s' i _ ha he ih => exact hstep s i s' ih ha he

variable (S) in
/-- The events that follow `s`, each allowed where it happens. -/
inductive Run : σ → List ι → σ → Prop
  | nil (s : σ) : Run s [] s
  | cons (s s₁ s' : σ) (i : ι) (is : List ι) (ha : S.allowed s i) (he : S.exec s i = .ok s₁)
      (h : Run s₁ is s') : Run s (i :: is) s'

/-- A system with a stronger guard reaches nothing new. -/
theorem Reachable.mono {T : System σ ι ε} (hinit : ∀ s, S.init s → T.init s)
    (hallowed : ∀ s i, S.allowed s i → T.allowed s i) (hexec : S.exec = T.exec)
    (h : S.Reachable s) : T.Reachable s := by
  induction h with
  | init s h => exact .init s (hinit s h)
  | step s s' i _ ha he ih => exact .step s s' i ih (hallowed s i ha) (hexec ▸ he)

end System
