import Mathlib.Data.List.Nodup
import Mathlib.Logic.Relation
import Mathlib.Tactic.Common

/-!
# Depth-first walks

A walk over a graph that finishes a node after the nodes behind it. Only some of the nodes
are marked on entry and not entered again; the others are walked through each time they are
met, so every cycle of the graph has to pass a marked node. A node is finished after
everything it leads to, unless it is on a cycle with another marked node.
-/

structure Walk (α : Type) where
  succ : α → List α
  /-- The nodes that are marked on entry. -/
  marked : α → Bool

/-- `seen` are the marked nodes that were entered, `done` the nodes that are finished, in order. -/
structure WalkState (α : Type) where
  seen : List α
  done : List α

namespace Walk

variable {α : Type}

/-- What a walk adds to. -/
structure Grows (s s' : WalkState α) : Prop where
  seen : s.seen ⊆ s'.seen
  done : s.done ⊆ s'.done

theorem Grows.refl (s : WalkState α) : Grows s s := ⟨fun _ h => h, fun _ h => h⟩

theorem Grows.trans {s s' s'' : WalkState α} (h : Grows s s') (h' : Grows s' s'') : Grows s s'' :=
  ⟨fun _ hx => h'.seen (h.seen hx), fun _ hx => h'.done (h.done hx)⟩

variable [DecidableEq α]

def finish (a : α) (s : WalkState α) : WalkState α :=
  if a ∈ s.done then s else { s with done := s.done ++ [a] }

def visitAll (visit : α → WalkState α → Option (WalkState α)) : List α → WalkState α → Option (WalkState α)
  | [], s => some s
  | a :: as, s =>
    match visit a s with
    | some s' => visitAll visit as s'
    | none => none

variable (W : Walk α)

/-- `n` bounds the depth of the recursion. -/
def visit : Nat → α → WalkState α → Option (WalkState α)
  | 0, _, _ => none
  | n + 1, a, s =>
    if W.marked a = true then
      if a ∈ s.seen then some s
      else (visitAll (visit n) (W.succ a) { s with seen := a :: s.seen }).map (finish a)
    else (visitAll (visit n) (W.succ a) s).map (finish a)

/-- Something else comes before `a` is finished. -/
def Needs (a b : α) : Prop := Relation.TransGen (fun x y => y ∈ W.succ x) a b

/-- Another marked node is on a cycle with `a`. -/
def OnCycle (a : α) : Prop := ∃ g, g ≠ a ∧ W.marked g = true ∧ W.Needs a g ∧ W.Needs g a

/-! ## The order -/

/-- What holds in the middle of a walk, with the nodes that are being walked in `anc`. -/
structure Good (anc : List α) (s : WalkState α) : Prop where
  seen_marked : ∀ a ∈ s.seen, W.marked a = true
  entered : ∀ a ∈ s.seen, a ∈ s.done ∨ a ∈ anc
  nodup : s.done.Nodup
  closed : ∀ a ∈ s.done, ∀ b ∈ W.succ a, b ∈ s.done ∨ b ∈ s.seen
  ordered : ∀ l x r, s.done = l ++ x :: r → ∀ y, W.Needs x y → y ∈ l ∨ y = x ∨ W.OnCycle x

theorem grows_finish (a : α) (s : WalkState α) : Grows s (finish a s) := by
  rw [finish]
  split
  · exact Grows.refl s
  · exact ⟨fun _ h => h, fun _ h => List.mem_append_left _ h⟩

theorem mem_done_finish (a : α) (s : WalkState α) : a ∈ (finish a s).done := by
  rw [finish]
  split
  · assumption
  · exact List.mem_append_right _ (List.mem_singleton_self a)

variable {W} {anc : List α} {a : α} {s s' : WalkState α}

/-- When all behind `a` has been walked, `a` leads to nothing unfinished but itself, unless
it is on a cycle. -/
theorem Good.leads (h : W.Good (a :: anc) s) (hanc : ∀ g ∈ anc, W.Needs g a)
    (hsucc : ∀ b ∈ W.succ a, b ∈ s.done ∨ b ∈ s.seen) {y : α} (hy : W.Needs a y) :
    y ∈ s.done ∨ y = a ∨ W.OnCycle a := by
  have hmet : ∀ y, W.Needs a y → y ∈ s.done ∨ y ∈ s.seen → y ∈ s.done ∨ y = a ∨ W.OnCycle a := by
    rintro y hy (hdone | hseen)
    · exact Or.inl hdone
    · rcases h.entered y hseen with hdone | hmem
      · exact Or.inl hdone
      · by_cases hya : y = a
        · exact Or.inr (Or.inl hya)
        · have hup : y ∈ anc := (List.mem_cons.mp hmem).resolve_left hya
          exact Or.inr (Or.inr ⟨y, hya, h.seen_marked y hseen, hy, hanc y hup⟩)
  induction hy with
  | single hb => exact hmet _ (.single hb) (hsucc _ hb)
  | tail hz hb ih =>
    rcases ih with hdone | rfl | hcycle
    · exact hmet _ (hz.tail hb) (h.closed _ hdone _ hb)
    · exact hmet _ (hz.tail hb) (hsucc _ hb)
    · exact Or.inr (Or.inr hcycle)

theorem Good.finish (h : W.Good (a :: anc) s) (hanc : ∀ g ∈ anc, W.Needs g a)
    (hsucc : ∀ b ∈ W.succ a, b ∈ s.done ∨ b ∈ s.seen) : W.Good anc (finish a s) := by
  have hentered : ∀ b ∈ s.seen, b ∈ (Walk.finish a s).done ∨ b ∈ anc := by
    intro b hb
    rcases h.entered b hb with hdone | hmem
    · exact Or.inl ((grows_finish a s).done hdone)
    · rcases List.mem_cons.mp hmem with rfl | hmem
      · exact Or.inl (mem_done_finish _ s)
      · exact Or.inr hmem
  by_cases ha : a ∈ s.done
  · have heq : Walk.finish a s = s := if_pos ha
    rw [heq] at hentered ⊢
    exact ⟨h.seen_marked, hentered, h.nodup, h.closed, h.ordered⟩
  · have heq : Walk.finish a s = { s with done := s.done ++ [a] } := if_neg ha
    rw [heq] at hentered ⊢
    refine ⟨h.seen_marked, hentered, ?_, ?_, ?_⟩
    · exact List.nodup_append.mpr ⟨h.nodup, List.nodup_singleton a, fun x hx y hy => by
        rintro rfl
        exact ha (List.mem_singleton.mp hy ▸ hx)⟩
    · intro x hx b hb
      rcases List.mem_append.mp hx with hx | hx
      · exact (h.closed x hx b hb).imp (List.mem_append_left _) id
      · obtain rfl := List.mem_singleton.mp hx
        exact (hsucc b hb).imp (List.mem_append_left _) id
    · intro l x r hsplit y hy
      rcases List.eq_nil_or_concat r with rfl | ⟨r, z, rfl⟩
      · obtain ⟨rfl, hxa⟩ := List.append_inj' hsplit rfl
        obtain rfl : a = x := List.singleton_inj.mp hxa
        exact h.leads hanc hsucc hy
      · have hsplit' : s.done ++ [a] = (l ++ x :: r) ++ [z] := by
          rw [List.append_assoc]
          simpa using hsplit
        exact h.ordered l x r (List.append_inj' hsplit' rfl).1 y hy

omit [DecidableEq α] in
theorem visitAll_grows {visit : α → WalkState α → Option (WalkState α)}
    (hvisit : ∀ a s s', visit a s = some s' → Grows s s') {as : List α} (h : visitAll visit as s = some s') :
    Grows s s' := by
  induction as generalizing s with
  | nil => exact Option.some.inj h ▸ Grows.refl s
  | cons a as ih =>
    rw [visitAll] at h
    split at h
    · rename_i mid hmid
      exact (hvisit a s mid hmid).trans (ih h)
    · exact nomatch h

theorem visit_grows {n : Nat} (h : W.visit n a s = some s') : Grows s s' := by
  induction n generalizing a s s' with
  | zero => exact nomatch h
  | succ n ih =>
    rw [visit] at h
    split at h
    · split at h
      · exact Option.some.inj h ▸ Grows.refl s
      · obtain ⟨mid, hmid, rfl⟩ := Option.map_eq_some_iff.mp h
        have hgrows := visitAll_grows (fun _ _ _ => ih) hmid
        exact Grows.trans ⟨fun _ hx => hgrows.seen (List.mem_cons_of_mem _ hx), hgrows.done⟩ (grows_finish a mid)
    · obtain ⟨mid, hmid, rfl⟩ := Option.map_eq_some_iff.mp h
      exact (visitAll_grows (fun _ _ _ => ih) hmid).trans (grows_finish a mid)

omit [DecidableEq α] in
/-- The nodes behind those that are being walked. -/
theorem Good.visitAll {visit : α → WalkState α → Option (WalkState α)}
    (hvisit : ∀ b s s', visit b s = some s' → W.Good anc s → (∀ g ∈ anc, W.Needs g b) →
      W.Good anc s' ∧ Grows s s' ∧ (b ∈ s'.done ∨ b ∈ s'.seen))
    {bs : List α} (hbs : ∀ b ∈ bs, ∀ g ∈ anc, W.Needs g b) (h : visitAll visit bs s = some s') (hs : W.Good anc s) :
    W.Good anc s' ∧ Grows s s' ∧ ∀ b ∈ bs, b ∈ s'.done ∨ b ∈ s'.seen := by
  induction bs generalizing s with
  | nil => exact Option.some.inj h ▸ ⟨hs, Grows.refl s, nofun⟩
  | cons b bs ih =>
    rw [Walk.visitAll] at h
    split at h
    · rename_i mid hmid
      obtain ⟨hgood, hgrows, hmet⟩ := hvisit b s mid hmid hs (hbs b (List.mem_cons_self ..))
      obtain ⟨hgood', hgrows', hmet'⟩ := ih (fun b hb => hbs b (List.mem_cons_of_mem _ hb)) h hgood
      refine ⟨hgood', hgrows.trans hgrows', fun x hx => ?_⟩
      rcases List.mem_cons.mp hx with rfl | hx
      · exact hmet.imp (fun h => hgrows'.done h) fun h => hgrows'.seen h
      · exact hmet' x hx
    · exact nomatch h

/-- A walk from `a` keeps the order, and `a` is finished unless it is being walked already. -/
theorem Good.visit {n : Nat} (h : W.visit n a s = some s') (hs : W.Good anc s) (hanc : ∀ g ∈ anc, W.Needs g a) :
    W.Good anc s' ∧ Grows s s' ∧ (a ∈ s'.done ∨ a ∈ s'.seen) := by
  induction n generalizing a s s' anc with
  | zero => exact nomatch h
  | succ n ih =>
    have hgrows := visit_grows h
    have hbehind : ∀ b ∈ W.succ a, ∀ g ∈ a :: anc, W.Needs g b := by
      intro b hb g hg
      rcases List.mem_cons.mp hg with rfl | hg
      · exact .single hb
      · exact (hanc g hg).tail hb
    have hwalk : ∀ {t mid : WalkState α}, W.Good (a :: anc) t → Walk.visitAll (W.visit n) (W.succ a) t = some mid →
        W.Good anc (Walk.finish a mid) := by
      intro t mid ht hmid
      obtain ⟨hgood, -, hmet⟩ := ht.visitAll (fun _ _ _ hv hg hn => ih hv hg hn) hbehind hmid
      exact hgood.finish hanc hmet
    rw [Walk.visit] at h
    split at h
    · rename_i hmarked
      split at h
      · rename_i hseen
        exact ⟨Option.some.inj h ▸ hs, hgrows, Or.inr (hgrows.seen hseen)⟩
      · obtain ⟨mid, hmid, rfl⟩ := Option.map_eq_some_iff.mp h
        have hentered : W.Good (a :: anc) { s with seen := a :: s.seen } := by
          refine ⟨fun x hx => ?_, fun x hx => ?_, hs.nodup, fun x hx b hb => ?_, hs.ordered⟩
          · rcases List.mem_cons.mp hx with rfl | hx
            · exact hmarked
            · exact hs.seen_marked x hx
          · rcases List.mem_cons.mp hx with rfl | hx
            · exact Or.inr (List.mem_cons_self ..)
            · exact (hs.entered x hx).imp id (List.mem_cons_of_mem _)
          · exact (hs.closed x hx b hb).imp id (List.mem_cons_of_mem _)
        exact ⟨hwalk hentered hmid, hgrows, Or.inl (mem_done_finish a mid)⟩
    · obtain ⟨mid, hmid, rfl⟩ := Option.map_eq_some_iff.mp h
      have hentered : W.Good (a :: anc) s :=
        ⟨hs.seen_marked, fun x hx => (hs.entered x hx).imp id (List.mem_cons_of_mem _), hs.nodup, hs.closed, hs.ordered⟩
      exact ⟨hwalk hentered hmid, hgrows, Or.inl (mem_done_finish a mid)⟩

/-- A whole walk: every root is finished once, behind all it needs unless it is on a cycle. -/
theorem walk_ordered {n : Nat} {roots : List α} (h : Walk.visitAll (W.visit n) roots ⟨[], []⟩ = some s) :
    s.done.Nodup ∧ roots ⊆ s.done ∧
      ∀ l x r, s.done = l ++ x :: r → ∀ y, W.Needs x y → y ∈ l ∨ y = x ∨ W.OnCycle x := by
  have hempty : W.Good [] ⟨[], []⟩ :=
    ⟨nofun, nofun, List.nodup_nil, nofun, fun l x r hsplit => absurd hsplit (by simp)⟩
  obtain ⟨hgood, -, hmet⟩ := hempty.visitAll (fun _ _ _ hv hg hn => hg.visit hv hn) (fun _ _ => nofun) h
  refine ⟨hgood.nodup, fun a ha => ?_, hgood.ordered⟩
  exact (hmet a ha).elim id fun hseen => (hgood.entered a hseen).elim id nofun

/-! ## Termination -/

/-- A part of a graph that a walk stays in: finitely many nodes in it are marked, and without
passing one of them a walk only descends. -/
structure Bounded (W : Walk α) where
  inside : α → Prop
  succ_inside : ∀ a, inside a → ∀ b ∈ W.succ a, inside b
  marks : List α
  mem_marks : ∀ a, inside a → W.marked a = true → a ∈ marks
  rank : α → Nat
  rank_lt : ∀ a, inside a → W.marked a = false → ∀ b ∈ W.succ a, rank b < rank a
  height : Nat
  rank_le : ∀ a, inside a → rank a ≤ height

namespace Bounded

variable (B : Bounded W)

/-- How deep a walk from `a` can get. -/
def budget (s : WalkState α) (a : α) : Nat :=
  (B.marks.filter fun m => m ∉ s.seen).length * (B.height + 1) + B.rank a

/-- Deep enough for every walk. -/
def fuel : Nat := B.marks.length * (B.height + 1) + B.height + 1

variable {B}

theorem unseen_mono {marks : List α} (h : s.seen ⊆ s'.seen) :
    (marks.filter fun m => m ∉ s'.seen).length ≤ (marks.filter fun m => m ∉ s.seen).length := by
  refine List.Sublist.length_le (List.monotone_filter_right _ fun m hm => ?_)
  simp only [decide_eq_true_eq] at hm ⊢
  exact fun hseen => hm (h hseen)

/-- Entering a marked node leaves one fewer to enter. -/
theorem unseen_lt {marks : List α} (ha : a ∈ marks) (hnew : a ∉ s.seen) :
    (marks.filter fun m => m ∉ a :: s.seen).length < (marks.filter fun m => m ∉ s.seen).length := by
  have hsplit : (marks.filter fun m => m ∉ a :: s.seen) = (marks.filter fun m => m ∉ s.seen).filter fun m => m ≠ a := by
    rw [List.filter_filter]
    refine List.filter_congr fun m _ => ?_
    simp [not_or]
  rw [hsplit]
  refine List.length_filter_lt_length_iff_exists.mpr ⟨a, List.mem_filter.mpr ⟨ha, by simpa using hnew⟩, by simp⟩

theorem visitAll_total {visit : α → WalkState α → Option (WalkState α)} {k : Nat}
    (hvisit : ∀ b s, B.inside b → B.budget s b < k → ∃ s', visit b s = some s')
    (hgrows : ∀ b s s', visit b s = some s' → Grows s s') {bs : List α}
    (hbs : ∀ b ∈ bs, B.inside b ∧ B.budget s b < k) : ∃ s', visitAll visit bs s = some s' := by
  induction bs generalizing s with
  | nil => exact ⟨s, rfl⟩
  | cons b bs ih =>
    obtain ⟨hin, hbudget⟩ := hbs b (List.mem_cons_self ..)
    obtain ⟨mid, hmid⟩ := hvisit b s hin hbudget
    obtain ⟨s', hs'⟩ := ih (s := mid) fun x hx => by
      obtain ⟨hin, hbudget⟩ := hbs x (List.mem_cons_of_mem _ hx)
      refine ⟨hin, Nat.lt_of_le_of_lt (Nat.add_le_add_right (Nat.mul_le_mul_right _ ?_) _) hbudget⟩
      exact unseen_mono (hgrows b s mid hmid).seen
    exact ⟨s', by rw [visitAll, hmid]; exact hs'⟩

theorem visit_total {n : Nat} (ha : B.inside a) (hn : B.budget s a < n) : ∃ s', W.visit n a s = some s' := by
  induction n generalizing a s with
  | zero => exact absurd hn (Nat.not_lt_zero _)
  | succ n ih =>
    have hall : ∀ t : WalkState α, (∀ b ∈ W.succ a, B.budget t b < n) →
        ∃ s', Walk.visitAll (W.visit n) (W.succ a) t = some s' := fun t ht =>
      visitAll_total (fun b s hin hb => ih hin hb) (fun _ _ _ => visit_grows) fun b hb =>
        ⟨B.succ_inside a ha b hb, ht b hb⟩
    rw [Walk.visit]
    split
    · rename_i hmarked
      split
      · exact ⟨s, rfl⟩
      · rename_i hnew
        obtain ⟨mid, hmid⟩ := hall { s with seen := a :: s.seen } fun b hb => by
          have hlt := unseen_lt (B.mem_marks a ha hmarked) hnew
          have hrank := B.rank_le b (B.succ_inside a ha b hb)
          have hmul := Nat.mul_le_mul_right (B.height + 1) hlt
          rw [Nat.succ_mul] at hmul
          rw [budget] at hn ⊢
          dsimp only at hmul ⊢
          omega
        exact ⟨finish a mid, by rw [hmid]; rfl⟩
    · rename_i hplain
      obtain ⟨mid, hmid⟩ := hall s fun b hb => by
        have hrank := B.rank_lt a ha (Bool.eq_false_iff.mpr hplain) b hb
        rw [budget] at hn ⊢
        omega
      exact ⟨finish a mid, by rw [hmid]; rfl⟩

end Bounded

omit [DecidableEq α] in
theorem visitAll_mono {visit visit' : α → WalkState α → Option (WalkState α)}
    (h : ∀ a s s', visit a s = some s' → visit' a s = some s') {as : List α} (hs : visitAll visit as s = some s') :
    visitAll visit' as s = some s' := by
  induction as generalizing s with
  | nil => exact hs
  | cons a as ih =>
    rw [visitAll] at hs ⊢
    split at hs
    · rename_i mid hmid
      rw [h a s mid hmid]
      exact ih hs
    · exact nomatch hs

/-- A walk that ends does not depend on the bound. -/
theorem visit_mono {n m : Nat} (hnm : n ≤ m) (h : W.visit n a s = some s') : W.visit m a s = some s' := by
  induction n generalizing a s s' m with
  | zero => exact nomatch h
  | succ n ih =>
    obtain ⟨m, rfl⟩ := Nat.exists_eq_add_one_of_ne_zero (by omega : m ≠ 0)
    have hall : ∀ {t mid : WalkState α}, visitAll (W.visit n) (W.succ a) t = some mid →
        visitAll (W.visit m) (W.succ a) t = some mid :=
      fun hmid => visitAll_mono (fun _ _ _ hv => ih (Nat.le_of_succ_le_succ hnm) hv) hmid
    rw [visit] at h ⊢
    split at h
    · rename_i hmarked
      rw [if_pos hmarked]
      split at h
      · rename_i hseen
        rw [if_pos hseen]
        exact h
      · rename_i hnew
        obtain ⟨mid, hmid, rfl⟩ := Option.map_eq_some_iff.mp h
        rw [if_neg hnew, hall hmid]
        rfl
    · rename_i hplain
      obtain ⟨mid, hmid, rfl⟩ := Option.map_eq_some_iff.mp h
      rw [if_neg hplain, hall hmid]
      rfl

namespace Bounded

variable {B : Bounded W}

/-- A walk from roots inside ends. -/
theorem walk_total {n : Nat} (hn : B.fuel ≤ n) {roots : List α} (hroots : ∀ a ∈ roots, B.inside a) :
    ∃ s, Walk.visitAll (W.visit n) roots ⟨[], []⟩ = some s := by
  refine visitAll_total (B := B) (k := n) (fun b s hin hb => visit_total hin hb) (fun _ _ _ => visit_grows) fun a ha => ?_
  refine ⟨hroots a ha, ?_⟩
  have hrank := B.rank_le a (hroots a ha)
  have hlen : (B.marks.filter fun m => m ∉ (⟨[], []⟩ : WalkState α).seen).length ≤ B.marks.length :=
    List.length_filter_le ..
  have hmul := Nat.mul_le_mul_right (B.height + 1) hlen
  rw [budget]
  rw [fuel] at hn
  omega

end Bounded

end Walk
