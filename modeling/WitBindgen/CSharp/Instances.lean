import WitBindgen.CSharp.ExportedResource

/-!
# Exported resources, soundly lowered

Own handles, occupied slots and live instances go together one to one: a handle
is at a place, in the component's table or elsewhere, stands for a slot, and the
slot has an instance whose `Handle` says at which place its handle is. Every
operation adds such a triple, moves one to another place, or removes one.
-/

namespace WitBindgen.CSharp

/-- Where a handle is. -/
inductive Place where
  | table (h : Nat)
  | abroad (x : Nat)
  deriving DecidableEq

/-! ## Places, slots and instances -/

/-- `own` are the handles by place, `slots` the table of representations, `handle`
the instances' fields, and `shown` what the field is to be for each place. -/
structure Matched (own : Place → Option Abroad) (slots : Nat → Option Nat) (handle : Nat → Nat)
    (shown : Place → Nat) : Prop where
  slot : ∀ p a, own p = some a → slots a.rep = some a.inst
  owned : ∀ rep i, slots rep = some i → ∃ p, own p = some ⟨rep, i⟩
  one : ∀ i rep rep', slots rep = some i → slots rep' = some i → rep = rep'
  apart : ∀ p p' a a', own p = some a → own p' = some a' → a.rep = a'.rep → p = p'
  field : ∀ p a, own p = some a → handle a.inst = shown p
  backed : ∀ i, handle i ≠ 0 → ∃ p rep, own p = some ⟨rep, i⟩

namespace Matched

variable {own : Place → Option Abroad} {slots : Nat → Option Nat} {handle : Nat → Nat}
  {shown shown' : Place → Nat} {p q : Place} {a : Abroad}

theorem empty : Matched (fun _ => none) (fun _ => none) (fun _ => 0) shown where
  slot _ _ h := by cases h
  owned _ _ h := by cases h
  one _ _ _ h := by cases h
  apart _ _ _ _ h := by cases h
  field _ _ h := by cases h
  backed _ h := absurd rfl h

variable (h : Matched own slots handle shown)
include h

/-- Handles of one instance are one handle. -/
theorem place_eq {a' : Abroad} (hp : own p = some a) (hq : own q = some a')
    (hi : a.inst = a'.inst) : p = q := by
  have hslot := h.slot p a hp
  rw [hi] at hslot
  exact h.apart p q a a' hp hq (h.one a'.inst a.rep a'.rep hslot (h.slot q a' hq))

/-- A new instance gets a slot and a handle. -/
theorem create {rep i : Nat} (hp : own p = none) (hrep : slots rep = none)
    (hi : ∀ r, slots r ≠ some i) (hshown : ∀ q, q ≠ p → shown' q = shown q) :
    Matched (Function.update own p (some ⟨rep, i⟩)) (Function.update slots rep (some i))
      (Function.update handle i (shown' p)) shown' := by
  have hown : ∀ q a, Function.update own p (some ⟨rep, i⟩) q = some a →
      q = p ∧ a = ⟨rep, i⟩ ∨ q ≠ p ∧ own q = some a := by
    intro q a hq
    by_cases hqp : q = p
    · rw [hqp, Function.update_self] at hq
      exact Or.inl ⟨hqp, (Option.some.inj hq).symm⟩
    · rw [Function.update_of_ne hqp] at hq
      exact Or.inr ⟨hqp, hq⟩
  have hslots : ∀ r j, Function.update slots rep (some i) r = some j →
      r = rep ∧ j = i ∨ r ≠ rep ∧ slots r = some j := by
    intro r j hr
    by_cases hrr : r = rep
    · rw [hrr, Function.update_self] at hr
      exact Or.inl ⟨hrr, (Option.some.inj hr).symm⟩
    · rw [Function.update_of_ne hrr] at hr
      exact Or.inr ⟨hrr, hr⟩
  have hrep_ne : ∀ q a, own q = some a → a.rep ≠ rep := by
    rintro q a hq rfl
    have hs := h.slot q a hq
    rw [hrep] at hs
    cases hs
  have hinst_ne : ∀ q a, own q = some a → a.inst ≠ i := by
    rintro q a hq rfl
    exact hi _ (h.slot q a hq)
  refine ⟨fun q a hq => ?_, fun r j hr => ?_, fun j r r' hr hr' => ?_,
    fun q q' a a' hq hq' heq => ?_, fun q a hq => ?_, fun j hj => ?_⟩
  · rcases hown q a hq with ⟨-, rfl⟩ | ⟨-, hq⟩
    · exact Function.update_self ..
    · rw [Function.update_of_ne (hrep_ne q a hq)]
      exact h.slot q a hq
  · rcases hslots r j hr with ⟨rfl, rfl⟩ | ⟨-, hr⟩
    · exact ⟨p, Function.update_self ..⟩
    · obtain ⟨q, hq⟩ := h.owned r j hr
      refine ⟨q, ?_⟩
      rw [Function.update_of_ne]
      · exact hq
      · rintro rfl
        rw [hp] at hq
        cases hq
  · rcases hslots r j hr with ⟨rfl, rfl⟩ | ⟨-, hold⟩ <;>
      rcases hslots r' _ hr' with ⟨rfl, hj⟩ | ⟨-, hold'⟩
    · rfl
    · exact absurd hold' (hi r')
    · rw [hj] at hold
      exact absurd hold (hi r)
    · exact h.one j r r' hold hold'
  · rcases hown q a hq with ⟨rfl, rfl⟩ | ⟨-, hold⟩ <;>
      rcases hown q' a' hq' with ⟨rfl, rfl⟩ | ⟨-, hold'⟩
    · rfl
    · exact absurd heq.symm (hrep_ne q' a' hold')
    · exact absurd heq (hrep_ne q a hold)
    · exact h.apart q q' a a' hold hold' heq
  · rcases hown q a hq with ⟨rfl, rfl⟩ | ⟨hne, hq⟩
    · exact Function.update_self ..
    · rw [Function.update_of_ne (hinst_ne q a hq), hshown q hne]
      exact h.field q a hq
  · by_cases hji : j = i
    · exact ⟨p, rep, hji ▸ Function.update_self ..⟩
    · rw [Function.update_of_ne hji] at hj
      obtain ⟨q, r, hq⟩ := h.backed j hj
      refine ⟨q, r, ?_⟩
      rw [Function.update_of_ne]
      · exact hq
      · rintro rfl
        rw [hp] at hq
        cases hq

/-- A handle is at another place, or shown otherwise. -/
theorem move (hp : own p = some a) (hq : own q = none ∨ q = p)
    (hshown : ∀ r, r ≠ p → r ≠ q → shown' r = shown r) :
    Matched (Function.update (Function.update own p none) q (some a)) slots
      (Function.update handle a.inst (shown' q)) shown' := by
  have hown : ∀ r b, Function.update (Function.update own p none) q (some a) r = some b →
      r = q ∧ b = a ∨ r ≠ q ∧ r ≠ p ∧ own r = some b := by
    intro r b hr
    by_cases hrq : r = q
    · rw [hrq, Function.update_self] at hr
      exact Or.inl ⟨hrq, (Option.some.inj hr).symm⟩
    · rw [Function.update_of_ne hrq] at hr
      by_cases hrp : r = p
      · rw [hrp, Function.update_self] at hr
        cases hr
      · rw [Function.update_of_ne hrp] at hr
        exact Or.inr ⟨hrq, hrp, hr⟩
  have hstay : ∀ r b, own r = some b →
      ∃ r', Function.update (Function.update own p none) q (some a) r' = some b := by
    intro r b hr
    by_cases hrp : r = p
    · rw [hrp, hp] at hr
      exact ⟨q, (Function.update_self ..).trans hr⟩
    · have hrq : r ≠ q := by
        rintro rfl
        rcases hq with hq | rfl
        · rw [hq] at hr
          cases hr
        · exact hrp rfl
      exact ⟨r, by rw [Function.update_of_ne hrq, Function.update_of_ne hrp, hr]⟩
  refine ⟨fun r b hr => ?_, fun r i hr => ?_, h.one, fun r r' b b' hr hr' heq => ?_,
    fun r b hr => ?_, fun i hi => ?_⟩
  · rcases hown r b hr with ⟨-, rfl⟩ | ⟨-, -, hr⟩
    · exact h.slot p b hp
    · exact h.slot r b hr
  · obtain ⟨p', hp'⟩ := h.owned r i hr
    exact hstay p' _ hp'
  · rcases hown r b hr with ⟨rfl, rfl⟩ | ⟨-, hrp, hold⟩ <;>
      rcases hown r' b' hr' with ⟨rfl, rfl⟩ | ⟨-, hrp', hold'⟩
    · rfl
    · exact absurd (h.apart p r' b b' hp hold' heq).symm hrp'
    · exact absurd (h.apart r p b b' hold hp heq) hrp
    · exact h.apart r r' b b' hold hold' heq
  · rcases hown r b hr with ⟨rfl, rfl⟩ | ⟨hrq, hrp, hr⟩
    · exact Function.update_self ..
    · have hne : b.inst ≠ a.inst := fun heq => hrp (h.place_eq hr hp heq)
      rw [Function.update_of_ne hne, hshown r hrp hrq]
      exact h.field r b hr
  · by_cases hia : i = a.inst
    · exact ⟨q, a.rep, hia ▸ Function.update_self ..⟩
    · rw [Function.update_of_ne hia] at hi
      obtain ⟨r, rep, hr⟩ := h.backed i hi
      obtain ⟨r', hr'⟩ := hstay r _ hr
      exact ⟨r', rep, hr'⟩

/-- A handle is dropped, with its slot and the instance's field. -/
theorem delete (hp : own p = some a) (hshown : ∀ r, r ≠ p → shown' r = shown r) :
    Matched (Function.update own p none) (Function.update slots a.rep none)
      (Function.update handle a.inst 0) shown' := by
  have hown : ∀ r b, Function.update own p none r = some b → r ≠ p ∧ own r = some b := by
    intro r b hr
    by_cases hrp : r = p
    · rw [hrp, Function.update_self] at hr
      cases hr
    · rw [Function.update_of_ne hrp] at hr
      exact ⟨hrp, hr⟩
  have hslots : ∀ r j, Function.update slots a.rep none r = some j →
      r ≠ a.rep ∧ slots r = some j := by
    intro r j hr
    by_cases hra : r = a.rep
    · rw [hra, Function.update_self] at hr
      cases hr
    · rw [Function.update_of_ne hra] at hr
      exact ⟨hra, hr⟩
  refine ⟨fun r b hr => ?_, fun r i hr => ?_, fun i r r' hr hr' => ?_,
    fun r r' b b' hr hr' heq => ?_, fun r b hr => ?_, fun i hi => ?_⟩
  · obtain ⟨hrp, hr⟩ := hown r b hr
    have hne : b.rep ≠ a.rep := fun heq => hrp (h.apart r p b a hr hp heq)
    rw [Function.update_of_ne hne]
    exact h.slot r b hr
  · obtain ⟨hra, hr⟩ := hslots r i hr
    obtain ⟨q, hq⟩ := h.owned r i hr
    refine ⟨q, ?_⟩
    rw [Function.update_of_ne]
    · exact hq
    · rintro rfl
      rw [hp] at hq
      exact hra (congrArg Abroad.rep (Option.some.inj hq)).symm
  · exact h.one i r r' (hslots r i hr).2 (hslots r' i hr').2
  · exact h.apart r r' b b' (hown r b hr).2 (hown r' b' hr').2 heq
  · obtain ⟨hrp, hr⟩ := hown r b hr
    have hne : b.inst ≠ a.inst := fun heq => hrp (h.place_eq hr hp heq)
    rw [Function.update_of_ne hne, hshown r hrp]
    exact h.field r b hr
  · by_cases hia : i = a.inst
    · rw [hia, Function.update_self] at hi
      exact absurd rfl hi
    · rw [Function.update_of_ne hia] at hi
      obtain ⟨q, rep, hq⟩ := h.backed i hi
      refine ⟨q, rep, ?_⟩
      rw [Function.update_of_ne]
      · exact hq
      · rintro rfl
        rw [hp] at hq
        exact hia (congrArg Abroad.inst (Option.some.inj hq)).symm

end Matched

end WitBindgen.CSharp
