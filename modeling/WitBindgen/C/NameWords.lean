import WitBindgen.Library.Spelling
import WitBindgen.C.Naming

/-!
# The words of a name

A name in snake case spells its words, which have neither underscores nor dots in them.
-/

namespace WitBindgen.C

/-- An underscore stands between two words. -/
abbrev SpelledOut (s : String) (ws : List String) : Prop := Spells '_' s ws

/-! ## Words -/

theorem mem_scanWords {mode : WordMode} {word cs l : List Char} (hl : l ∈ scanWords mode word cs) :
    ∀ c ∈ l, c ∈ word ∨ c ∈ cs := by
  fun_induction scanWords mode word cs with
  | case1 mode word => cases hl
  | case2 mode word c =>
    rw [List.mem_singleton] at hl
    subst hl
    exact fun d hd => List.mem_append.mp hd
  | case3 mode word c next rest mode' hcond ih =>
    rcases List.mem_cons.mp hl with rfl | hl
    · intro d hd
      rcases List.mem_append.mp hd with hd | hd
      · exact Or.inl hd
      · exact Or.inr (List.mem_singleton.mp hd ▸ List.mem_cons_self ..)
    · exact fun d hd => (ih hl d hd).elim nofun fun hd => Or.inr (List.mem_cons_of_mem _ hd)
  | case4 mode word c next rest mode' hfirst hcond ih =>
    rcases List.mem_cons.mp hl with rfl | hl
    · exact fun d hd => Or.inl hd
    · intro d hd
      rcases ih hl d hd with hd | hd
      · exact Or.inr (List.mem_singleton.mp hd ▸ List.mem_cons_self ..)
      · exact Or.inr (List.mem_cons_of_mem _ hd)
  | case5 mode word c next rest mode' hfirst hcond ih =>
    intro d hd
    rcases ih hl d hd with hd | hd
    · rcases List.mem_append.mp hd with hd | hd
      · exact Or.inl hd
      · exact Or.inr (List.mem_singleton.mp hd ▸ List.mem_cons_self ..)
    · exact Or.inr (List.mem_cons_of_mem _ hd)

/-- Letters and digits, in small letters, are neither underscores nor dots. -/
theorem toLower_ne {c : Char} (h : c.isAlphanum = true) : c.toLower ≠ '_' ∧ c.toLower ≠ '.' := by
  by_cases hupper : c.val ≥ 'A'.val ∧ c.val ≤ 'Z'.val
  · have hval : c.toLower.val.toNat = c.val.toNat + 32 := by
      have hlow := hupper.1
      have hhigh := hupper.2
      rw [ge_iff_le, UInt32.le_iff_toNat_le] at hlow
      rw [UInt32.le_iff_toNat_le] at hhigh
      rw [Char.toLower.eq_def, dif_pos hupper]
      simp only [UInt32.toNat_add, UInt32.toNat_sub]
      have hA : 'A'.val.toNat = 65 := rfl
      have hZ : 'Z'.val.toNat = 90 := rfl
      have ha : 'a'.val.toNat = 97 := rfl
      omega
    have hlow : 65 ≤ c.val.toNat := UInt32.le_iff_toNat_le.mp hupper.1
    refine ⟨fun heq => ?_, fun heq => ?_⟩ <;> rw [heq] at hval
    · have h95 : '_'.val.toNat = 95 := rfl
      omega
    · have h46 : '.'.val.toNat = 46 := rfl
      omega
  · rw [Char.toLower.eq_def, dif_neg hupper]
    refine ⟨?_, ?_⟩ <;> rintro rfl <;> revert h <;> decide

/-- Capitals are remembered only within a word. -/
theorem scanWords_ne {mode : WordMode} {word cs l : List Char} (hmode : mode = .uppercase → word ≠ [])
    (hl : l ∈ scanWords mode word cs) : l ≠ [] := by
  fun_induction scanWords mode word cs with
  | case1 mode word => cases hl
  | case2 mode word c =>
    rw [List.mem_singleton] at hl
    subst hl
    exact List.append_ne_nil_of_right_ne_nil _ (List.cons_ne_nil _ _)
  | case3 mode word c next rest mode' hcond ih =>
    rcases List.mem_cons.mp hl with rfl | hl
    · exact List.append_ne_nil_of_right_ne_nil _ (List.cons_ne_nil _ _)
    · exact ih (fun h => nomatch h) hl
  | case4 mode word c next rest mode' hfirst hcond ih =>
    rcases List.mem_cons.mp hl with rfl | hl
    · exact hmode hcond.1
    · exact ih (fun h => nomatch h) hl
  | case5 mode word c next rest mode' hfirst hcond ih =>
    exact ih (fun _ => List.append_ne_nil_of_right_ne_nil _ (List.cons_ne_nil _ _)) hl

theorem words_ne {s w : String} (hw : w ∈ words s) : w ≠ "" := by
  obtain ⟨l, hl, rfl⟩ := List.mem_map.mp hw
  obtain ⟨run, -, hl⟩ := List.mem_flatMap.mp hl
  intro heq
  have hnil := congrArg String.toList heq
  rw [String.toList_ofList] at hnil
  have hmode : WordMode.boundary = .uppercase → ([] : List Char) ≠ [] := fun h => nomatch h
  exact scanWords_ne hmode hl (List.map_eq_nil_iff.mp hnil)

theorem words_clean {s w : String} (hw : w ∈ words s) : ∀ c ∈ w.toList, c ≠ '_' ∧ c ≠ '.' := by
  obtain ⟨l, hl, rfl⟩ := List.mem_map.mp hw
  obtain ⟨run, hrun, hl⟩ := List.mem_flatMap.mp hl
  rw [String.toList_ofList]
  intro c hc
  obtain ⟨d, hd, rfl⟩ := List.mem_map.mp hc
  have hmem : d ∈ run := (mem_scanWords hl d hd).resolve_left nofun
  exact toLower_ne (by simpa using List.of_mem_splitOnP hrun d hmem)

theorem toSnakeCase_spelled {s : String} (h : words s ≠ []) : SpelledOut (toSnakeCase s) (words s) :=
  ⟨h, fun _ hw hmem => (words_clean hw _ hmem).1 rfl, rfl⟩

/-- Where no capital stands, there is one word. -/
theorem scanWords_small {mode : WordMode} {word cs : List Char} (hne : cs ≠ [])
    (h : ∀ c ∈ cs, c.isUpper = false) : scanWords mode word cs = [word ++ cs] := by
  fun_induction scanWords mode word cs with
  | case1 mode word => exact absurd rfl hne
  | case2 mode word c => rfl
  | case3 mode word c next rest mode' hcond ih =>
    rw [h next (by simp)] at hcond
    exact absurd hcond.2 (by simp)
  | case4 mode word c next rest mode' hfirst hcond ih =>
    rw [h c List.mem_cons_self] at hcond
    exact absurd hcond.2.1 (by simp)
  | case5 mode word c next rest mode' hfirst hcond ih =>
    rw [ih (List.cons_ne_nil _ _) fun d hd => h d (List.mem_cons_of_mem _ hd), List.append_assoc]
    rfl

/-- And so it is where no small letter stands. -/
theorem scanWords_capital {mode : WordMode} {word cs : List Char} (hne : cs ≠ []) (hmode : mode ≠ .lowercase)
    (h : ∀ c ∈ cs, c.isLower = false) : scanWords mode word cs = [word ++ cs] := by
  fun_induction scanWords mode word cs with
  | case1 mode word => exact absurd rfl hne
  | case2 mode word c => rfl
  | case3 mode word c next rest mode' hcond ih =>
    have hmode' : mode' ≠ .lowercase := by
      unfold mode'
      rw [h c List.mem_cons_self, if_neg (by simp)]
      split
      · simp
      · exact hmode
    exact absurd hcond.1 hmode'
  | case4 mode word c next rest mode' hfirst hcond ih =>
    rw [h next (by simp)] at hcond
    exact absurd hcond.2.2 (by simp)
  | case5 mode word c next rest mode' hfirst hcond ih =>
    have hmode' : mode' ≠ .lowercase := by
      unfold mode'
      rw [h c List.mem_cons_self, if_neg (by simp)]
      split
      · simp
      · exact hmode
    rw [ih (List.cons_ne_nil _ _) hmode' fun d hd => h d (List.mem_cons_of_mem _ hd), List.append_assoc]
    rfl

/-- What stands between the words does not matter. -/
theorem words_replaceChars {f : Char → Char} (hclass : ∀ c, (f c).isAlphanum = c.isAlphanum)
    (hkeep : ∀ c, c.isAlphanum = true → f c = c) (s : String) : words (replaceChars f s) = words s := by
  rw [words, words, replaceChars, String.toList_ofList, List.splitOnP_map, List.flatMap_map]
  have hp : (fun c => !Char.isAlphanum c) ∘ f = fun c => !c.isAlphanum := funext fun c => by
    rw [Function.comp, hclass]
  rw [hp]
  congr 1
  refine List.flatMap_congr fun l hl => ?_
  rw [(List.map_congr_left fun c hc => hkeep c ?_).trans (List.map_id l)]
  simpa using List.of_mem_splitOnP hl c hc

end WitBindgen.C
