import Mathlib.Tactic.Common

/-!
# Vacancies chained through their own slots

A table that reuses slots keeps the vacant ones in a chain: a head, and in every
vacant slot the next one. `link r = some next` says that slot `r` is vacant and
points to `next`. The chain is right when it passes through each vacant slot
once.
-/

/-- From `start`, the chain passes through `rs` and ends. -/
inductive Chained (link : Nat → Option (Option Nat)) : Option Nat → List Nat → Prop
  | done : Chained link none []
  | hop {r : Nat} {next : Option Nat} {rs : List Nat} (h : link r = some next)
      (hrest : Chained link next rs) : Chained link (some r) (r :: rs)

/-- The chain passes through the vacant slots, through each once. -/
structure Vacancies (link : Nat → Option (Option Nat)) (start : Option Nat) (rs : List Nat) :
    Prop where
  chain : Chained link start rs
  nodup : rs.Nodup
  all : ∀ r next, link r = some next → r ∈ rs

variable {link link' : Nat → Option (Option Nat)} {start next : Option Nat} {r : Nat} {rs : List Nat}

theorem Chained.congr (h : Chained link start rs) (heq : ∀ r ∈ rs, link' r = link r) :
    Chained link' start rs := by
  induction h with
  | done => exact .done
  | hop hlink _ ih =>
    refine .hop ((heq _ (List.mem_cons_self ..)).trans hlink) (ih fun r hr => ?_)
    exact heq r (List.mem_cons_of_mem _ hr)

theorem Chained.vacant (h : Chained link start rs) (hr : r ∈ rs) : ∃ next, link r = some next := by
  induction h with
  | done => cases hr
  | hop hlink _ ih =>
    rcases List.mem_cons.mp hr with rfl | hr
    · exact ⟨_, hlink⟩
    · exact ih hr

namespace Vacancies

theorem empty (h : ∀ r, link r = none) : Vacancies link none [] where
  chain := .done
  nodup := List.nodup_nil
  all r next hr := by
    rw [h r] at hr
    cases hr

/-- The head is vacant. -/
theorem head (h : Vacancies link (some r) rs) : ∃ next, link r = some next := by
  cases h.chain with
  | hop hlink _ => exact ⟨_, hlink⟩

/-- The links alone matter. -/
theorem congr (h : Vacancies link start rs) (heq : ∀ r, link' r = link r) :
    Vacancies link' start rs where
  chain := h.chain.congr fun r _ => heq r
  nodup := h.nodup
  all r next hr := h.all r next ((heq r).symm.trans hr)

/-- The head is filled, and the chain starts where it pointed to. -/
theorem pop (h : Vacancies link (some r) rs) (hr : link r = some next) (hfill : link' r = none)
    (hrest : ∀ r', r' ≠ r → link' r' = link r') : ∃ rs', Vacancies link' next rs' := by
  obtain ⟨hchain, hnodup, hall⟩ := h
  cases hchain with
  | @hop _ next' rs hlink hchain =>
    obtain rfl : next' = next := Option.some.inj (hlink.symm.trans hr)
    obtain ⟨hnotMem, hnodup⟩ := List.nodup_cons.mp hnodup
    refine ⟨rs, hchain.congr fun r' hr' => hrest r' ?_, hnodup, fun r' n hr' => ?_⟩
    · rintro rfl
      exact hnotMem hr'
    · have hne : r' ≠ r := by
        rintro rfl
        rw [hfill] at hr'
        cases hr'
      rw [hrest r' hne] at hr'
      rcases List.mem_cons.mp (hall r' n hr') with rfl | hmem
      · exact absurd rfl hne
      · exact hmem

/-- A filled slot becomes the head and points to the old one. -/
theorem push (h : Vacancies link start rs) (hr : link r = none) (hempty : link' r = some start)
    (hrest : ∀ r', r' ≠ r → link' r' = link r') : Vacancies link' (some r) (r :: rs) := by
  have hnotMem : r ∉ rs := by
    intro hmem
    obtain ⟨next, hlink⟩ := h.chain.vacant hmem
    rw [hr] at hlink
    cases hlink
  refine ⟨.hop hempty (h.chain.congr fun r' hr' => hrest r' ?_),
    List.nodup_cons.mpr ⟨hnotMem, h.nodup⟩, fun r' n hr' => ?_⟩
  · rintro rfl
    exact hnotMem hr'
  · by_cases hne : r' = r
    · exact List.mem_cons.mpr (Or.inl hne)
    · rw [hrest r' hne] at hr'
      exact List.mem_cons_of_mem _ (h.all r' n hr')

end Vacancies
