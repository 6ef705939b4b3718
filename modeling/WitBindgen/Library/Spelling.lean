import Mathlib.Data.List.Basic
import Mathlib.Tactic.Common

/-!
# Names spelled in words

A name is put together from words with a separator between them. As long as no word has
the separator in it, the words can be read back, so two names are the same exactly if
they are spelled with the same words, wherever the pieces they were made of began.
-/

/-- No piece has in it what a list is split at. -/
theorem List.of_mem_splitOnP {α : Type} {p : α → Bool} {xs l : List α} (hl : l ∈ xs.splitOnP p) :
    ∀ x ∈ l, p x = false := by
  induction xs generalizing l with
  | nil =>
    rw [List.splitOnP_nil, List.mem_singleton] at hl
    subst hl
    exact nofun
  | cons x xs ih =>
    rw [List.splitOnP_cons_eq_if_modifyHead] at hl
    split at hl
    · rcases List.mem_cons.mp hl with rfl | hl
      · exact nofun
      · exact ih hl
    · cases hpieces : xs.splitOnP p with
      | nil => exact absurd hpieces (List.splitOnP_ne_nil _ _)
      | cons first rest =>
        rw [hpieces] at hl ih
        rcases List.mem_cons.mp hl with rfl | hl
        · intro y hy
          rcases List.mem_cons.mp hy with rfl | hy
          · exact Bool.not_eq_true _ ▸ ‹¬_›
          · exact ih (List.mem_cons_self ..) y hy
        · exact ih (List.mem_cons_of_mem _ hl)

/-- Splitting asks only what the elements are. -/
theorem List.splitOnP_congr {α : Type} {p q : α → Bool} {xs : List α} (h : ∀ x ∈ xs, p x = q x) :
    xs.splitOnP p = xs.splitOnP q := by
  induction xs with
  | nil => rfl
  | cons x xs ih =>
    rw [List.splitOnP_cons_eq_if_modifyHead, List.splitOnP_cons_eq_if_modifyHead,
      h x List.mem_cons_self, ih fun y hy => h y (List.mem_cons_of_mem _ hy)]

theorem List.splitOnP_map {α β : Type} {f : α → β} {p : β → Bool} (xs : List α) :
    (xs.map f).splitOnP p = (xs.splitOnP (p ∘ f)).map (List.map f) := by
  induction xs with
  | nil => rfl
  | cons x xs ih =>
    rw [List.map_cons, List.splitOnP_cons_eq_if_modifyHead, List.splitOnP_cons_eq_if_modifyHead, ih]
    dsimp only [Function.comp]
    split
    · rfl
    · cases xs.splitOnP (p ∘ f) with
      | nil => rfl
      | cons => rfl

theorem List.mem_of_mem_intercalate {α : Type} {sep c : α} {ls : List (List α)} (h : c ∈ [sep].intercalate ls) :
    c = sep ∨ ∃ l ∈ ls, c ∈ l := by
  induction ls with
  | nil => cases h
  | cons l ls ih =>
    cases ls with
    | nil =>
      rw [List.intercalate_singleton] at h
      exact Or.inr ⟨l, List.mem_singleton_self l, h⟩
    | cons l' ls =>
      rw [List.intercalate_cons_cons, List.append_assoc] at h
      rcases List.mem_append.mp h with h | h
      · exact Or.inr ⟨l, List.mem_cons_self .., h⟩
      · rcases List.mem_cons.mp h with h | h
        · exact Or.inl h
        · exact (ih h).imp id fun ⟨l₁, hl, hc⟩ => ⟨l₁, List.mem_cons_of_mem _ hl, hc⟩

/-- Two lists that are split at the first place something stands. -/
theorem List.append_cons_inj_of_notMem_left {α : Type} {c : α} {xs ys l m : List α} (hxs : c ∉ xs)
    (hys : c ∉ ys) : xs ++ c :: l = ys ++ c :: m ↔ xs = ys ∧ l = m := by
  constructor
  · intro h
    rcases List.append_eq_append_iff.mp h with ⟨mid, rfl, hmid⟩ | ⟨mid, rfl, hmid⟩
    · cases mid with
      | nil => exact ⟨(List.append_nil _).symm, (List.cons.inj hmid).2⟩
      | cons y mid => exact absurd (by rw [(List.cons.inj hmid).1]; simp) hys
    · cases mid with
      | nil => exact ⟨List.append_nil _, (List.cons.inj hmid).2.symm⟩
      | cons y mid => exact absurd (by rw [(List.cons.inj hmid).1]; simp) hxs
  · rintro ⟨rfl, rfl⟩
    rfl

/-- `s` is the words `ws` with `sep` between them. -/
structure Spells (sep : Char) (s : String) (ws : List String) : Prop where
  some_word : ws ≠ []
  clean : ∀ w ∈ ws, sep ∉ w.toList
  eq : s = (String.singleton sep).intercalate ws

namespace Spells

variable {sep : Char} {s s' : String} {w : String} {ws ws' : List String}

theorem word (hw : sep ∉ w.toList) : Spells sep w [w] :=
  ⟨List.cons_ne_nil _ _, fun _ hm => List.mem_singleton.mp hm ▸ hw, String.intercalate_singleton.symm⟩

theorem append (h : Spells sep s ws) (h' : Spells sep s' ws') :
    Spells sep (s ++ String.singleton sep ++ s') (ws ++ ws') := by
  refine ⟨List.append_ne_nil_of_left_ne_nil h.some_word _, fun w hw => ?_, ?_⟩
  · exact (List.mem_append.mp hw).elim (h.clean w) (h'.clean w)
  · rw [String.intercalate_append_of_ne_nil h.some_word h'.some_word, ← h.eq, ← h'.eq]

/-- One more word in front. -/
theorem cons (hw : sep ∉ w.toList) (h : Spells sep s ws) : Spells sep (w ++ String.singleton sep ++ s) (w :: ws) :=
  (word hw).append h

theorem readBack (h : Spells sep s ws) : s.toList.splitOn sep = ws.map String.toList := by
  rw [h.eq, String.toList_intercalate, String.toList_singleton]
  refine List.splitOn_intercalate sep (fun l hl => ?_) (fun hnil => h.some_word (List.map_eq_nil_iff.mp hnil))
  obtain ⟨w, hw, rfl⟩ := List.mem_map.mp hl
  exact h.clean w hw

theorem eq_iff (h : Spells sep s ws) (h' : Spells sep s' ws') : s = s' ↔ ws = ws' := by
  constructor
  · rintro rfl
    exact List.map_inj_right (fun _ _ => String.toList_inj.mp) |>.mp (h.readBack.symm.trans h'.readBack)
  · rintro rfl
    rw [h.eq, h'.eq]

/-- Any string is spelled with what stands between its separators. -/
theorem split (s : String) : Spells sep s ((s.toList.splitOn sep).map String.ofList) := by
  refine ⟨fun hnil => List.splitOn_ne_nil _ _ (List.map_eq_nil_iff.mp hnil), fun w hw => ?_, ?_⟩
  · obtain ⟨l, hl, rfl⟩ := List.mem_map.mp hw
    rw [String.toList_ofList]
    rw [List.splitOn_eq_splitOnP] at hl
    exact fun hmem => absurd (List.of_mem_splitOnP hl sep hmem) (by simp)
  · apply String.toList_inj.mp
    rw [String.toList_intercalate, List.map_map, String.toList_singleton]
    have hid : String.toList ∘ String.ofList = id := funext fun l => String.toList_ofList
    rw [hid, List.map_id, List.intercalate_splitOn]

end Spells

/-! ## Words one behind the other -/

/-- Nothing stands between the last word of `ws` and the first of `vs`. -/
def runTogether (ws : List String) : List String → List String
  | [] => ws
  | v :: vs => ws.dropLast ++ (ws.getLastD "" ++ v) :: vs

theorem runTogether_concat (ws vs : List String) (w v : String) :
    runTogether (ws ++ [w]) (v :: vs) = ws ++ (w ++ v) :: vs := by
  rw [runTogether, List.dropLast_concat, List.getLastD_concat]

theorem intercalate_runTogether {sep : String} {ws : List String} (vs : List String) (h : ws ≠ []) :
    sep.intercalate (runTogether ws vs) = sep.intercalate ws ++ sep.intercalate vs := by
  cases vs with
  | nil => exact String.append_empty.symm
  | cons v vs =>
    obtain ⟨ws, w, rfl⟩ := List.eq_nil_or_concat ws |>.resolve_left h
    have hlast : sep.intercalate ((w ++ v) :: vs) = w ++ sep.intercalate (v :: vs) := by
      cases vs with
      | nil => rw [String.intercalate_singleton, String.intercalate_singleton]
      | cons v' vs => simp only [String.intercalate_cons_cons, String.append_assoc]
    rw [List.concat_eq_append, runTogether_concat]
    cases ws with
    | nil => rw [List.nil_append, List.nil_append, hlast, String.intercalate_singleton]
    | cons x xs =>
      rw [String.intercalate_append_of_ne_nil (List.cons_ne_nil _ _) (List.cons_ne_nil _ _),
        String.intercalate_append_of_ne_nil (List.cons_ne_nil _ _) (List.cons_ne_nil _ _), hlast,
        String.intercalate_singleton]
      simp only [String.append_assoc]

theorem Spells.runTogether {sep : Char} {s t : String} {ws vs : List String} (h : Spells sep s ws)
    (h' : Spells sep t vs) : Spells sep (s ++ t) (runTogether ws vs) := by
  obtain ⟨ws, w, rfl⟩ := List.eq_nil_or_concat ws |>.resolve_left h.some_word
  obtain ⟨v, vs, rfl⟩ := List.exists_cons_of_ne_nil h'.some_word
  refine ⟨?_, fun x hx => ?_, ?_⟩
  · rw [List.concat_eq_append, runTogether_concat]
    exact List.append_ne_nil_of_right_ne_nil _ (List.cons_ne_nil _ _)
  · rw [List.concat_eq_append, runTogether_concat] at hx
    have hclean := h.clean
    rw [List.concat_eq_append] at hclean
    rcases List.mem_append.mp hx with hx | hx
    · exact hclean x (List.mem_append_left _ hx)
    · rcases List.mem_cons.mp hx with rfl | hx
      · rw [String.toList_append]
        exact fun hmem => (List.mem_append.mp hmem).elim (hclean w (by simp)) (h'.clean v (by simp))
      · exact h'.clean x (List.mem_cons_of_mem _ hx)
  · rw [intercalate_runTogether _ h.some_word, ← h.eq, ← h'.eq]
