import Mathlib.Data.List.Nodup
import Mathlib.Data.List.Perm.Basic

/-!
# Accounts that events open, change and close

Things are numbered as they come into being, and each event of a log is about at most
one of them. An account says who holds a thing and what is known of it. The books are
right when the history of every thing agrees with its account, and when a thing
without an account has been settled.
-/

/-- What an event is about, which histories an account agrees with, and which end
an account. -/
structure Bookkeeping (ε δ : Type) where
  about : ε → Option Nat
  held : Nat → δ → List ε → Prop
  settled : Nat → List ε → Prop

namespace Bookkeeping

variable {ε δ : Type} (B : Bookkeeping ε δ)

/-- The events about one thing. -/
def history (log : List ε) (id : Nat) : List ε := log.filter fun e => B.about e == some id

@[simp] theorem history_nil (id : Nat) : B.history [] id = [] := rfl

@[simp] theorem history_append (log es : List ε) (id : Nat) :
    B.history (log ++ es) id = B.history log id ++ B.history es id :=
  List.filter_append ..

variable {B}

theorem history_of_about {es : List ε} {id : Nat} (h : ∀ e ∈ es, B.about e = some id) :
    B.history es id = es :=
  List.filter_eq_self.mpr fun e he => by simp [h e he]

theorem history_of_ne {es : List ε} {id k : Nat} (h : ∀ e ∈ es, B.about e = some id)
    (hk : k ≠ id) : B.history es k = [] :=
  List.filter_eq_nil_iff.mpr fun e he => by simp [h e he, Ne.symm hk]

/-! ## Closing accounts -/

variable (B) in
/-- The events settle the things of the accounts and are about no others. -/
structure Closes (es : List ε) (accounts : List (Nat × δ)) : Prop where
  settled : ∀ a ∈ accounts, ∀ h, B.held a.1 a.2 h → B.settled a.1 (h ++ B.history es a.1)
  others : ∀ id, id ∉ accounts.map Prod.fst → B.history es id = []

namespace Closes

variable {es es' : List ε} {xs ys : List (Nat × δ)}

theorem nil : B.Closes [] [] where
  settled := nofun
  others _ _ := rfl

theorem perm (h : B.Closes es xs) (hp : xs.Perm ys) : B.Closes es ys where
  settled a ha := h.settled a (hp.mem_iff.mpr ha)
  others id hid := h.others id fun hm => hid ((hp.map _).mem_iff.mp hm)

theorem append (h : B.Closes es xs) (h' : B.Closes es' ys)
    (hnd : ((xs ++ ys).map Prod.fst).Nodup) : B.Closes (es ++ es') (xs ++ ys) where
  settled a ha g hg := by
    rw [List.map_append] at hnd
    have hdisjoint := (List.nodup_append.mp hnd).2.2
    rw [history_append]
    rcases List.mem_append.mp ha with ha | ha
    · have hmem := List.mem_map_of_mem (f := Prod.fst) ha
      rw [h'.others a.1 fun hm => hdisjoint _ hmem _ hm rfl, List.append_nil]
      exact h.settled a ha g hg
    · have hmem := List.mem_map_of_mem (f := Prod.fst) ha
      rw [h.others a.1 fun hm => hdisjoint _ hm _ hmem rfl, List.nil_append]
      exact h'.settled a ha g hg
  others id hid := by
    rw [List.map_append, List.mem_append, not_or] at hid
    rw [history_append, h.others id hid.1, h'.others id hid.2, List.append_nil]

end Closes

/-! ## The books -/

variable (B) in
structure Books (accounts : List (Nat × δ)) (log : List ε) (n : Nat) : Prop where
  once : (accounts.map Prod.fst).Nodup
  held : ∀ a ∈ accounts, a.1 < n ∧ B.held a.1 a.2 (B.history log a.1)
  settled : ∀ id, id < n → id ∉ accounts.map Prod.fst → B.settled id (B.history log id)
  unborn : ∀ id, n ≤ id → B.history log id = []

namespace Books

variable {accounts xs : List (Nat × δ)} {log es : List ε} {n id : Nat} {d d' : δ}

theorem empty : B.Books [] [] 0 where
  once := List.nodup_nil
  held := nofun
  settled := nofun
  unborn _ _ := rfl

theorem perm (h : B.Books accounts log n) (hp : accounts.Perm xs) : B.Books xs log n where
  once := (hp.map _).nodup_iff.mp h.once
  held a ha := h.held a (hp.mem_iff.mpr ha)
  settled id hid hx := h.settled id hid fun hm => hx ((hp.map _).mem_iff.mp hm)
  unborn := h.unborn

/-- The next thing comes into being. -/
theorem opened (h : B.Books accounts log n) (hes : ∀ e ∈ es, B.about e = some n)
    (hd : B.held n d es) : B.Books ((n, d) :: accounts) (log ++ es) (n + 1) where
  once := by
    refine List.nodup_cons.mpr ⟨fun hm => ?_, h.once⟩
    obtain ⟨a, ha, rfl⟩ := List.mem_map.mp hm
    exact Nat.lt_irrefl _ (h.held a ha).1
  held a ha := by
    rw [history_append]
    rcases List.mem_cons.mp ha with rfl | ha
    · rw [h.unborn n (Nat.le_refl n), history_of_about hes]
      exact ⟨Nat.lt_succ_self n, hd⟩
    · obtain ⟨hlt, hheld⟩ := h.held a ha
      rw [history_of_ne hes (Nat.ne_of_lt hlt), List.append_nil]
      exact ⟨Nat.lt_succ_of_lt hlt, hheld⟩
  settled id hid hx := by
    rw [List.map_cons, List.mem_cons, not_or] at hx
    rw [history_append, history_of_ne hes hx.1, List.append_nil]
    exact h.settled id (Nat.lt_of_le_of_ne (Nat.le_of_lt_succ hid) hx.1) hx.2
  unborn id hid := by
    rw [history_append, h.unborn id (Nat.le_of_succ_le hid),
      history_of_ne hes (Nat.ne_of_gt hid), List.append_nil]

/-- Events about one thing change its account. -/
theorem changed (h : B.Books ((id, d) :: accounts) log n) (hes : ∀ e ∈ es, B.about e = some id)
    (hd : ∀ g, B.held id d g → B.held id d' (g ++ es)) :
    B.Books ((id, d') :: accounts) (log ++ es) n where
  once := h.once
  held a ha := by
    rw [history_append]
    rcases List.mem_cons.mp ha with rfl | hmem
    · obtain ⟨hlt, hheld⟩ := h.held (id, d) (List.mem_cons_self ..)
      rw [history_of_about hes]
      exact ⟨hlt, hd _ hheld⟩
    · have hne : a.1 ≠ id := by
        intro heq
        have hm := List.mem_map_of_mem (f := Prod.fst) hmem
        rw [heq] at hm
        exact (List.nodup_cons.mp h.once).1 hm
      rw [history_of_ne hes hne, List.append_nil]
      exact h.held a (List.mem_cons_of_mem _ hmem)
  settled k hk hx := by
    have hne : k ≠ id := fun heq => hx (by simp [heq])
    rw [history_append, history_of_ne hes hne, List.append_nil]
    exact h.settled k hk hx
  unborn k hk := by
    have hlt := (h.held (id, d) (List.mem_cons_self ..)).1
    rw [history_append, h.unborn k hk,
      history_of_ne hes (Nat.ne_of_gt (Nat.lt_of_lt_of_le hlt hk)), List.append_nil]

theorem closed (h : B.Books (xs ++ accounts) log n) (hc : B.Closes es xs) :
    B.Books accounts (log ++ es) n where
  once := by
    have hnd := h.once
    rw [List.map_append] at hnd
    exact (List.nodup_append.mp hnd).2.1
  held a ha := by
    have hnd := h.once
    rw [List.map_append] at hnd
    have hmem := List.mem_map_of_mem (f := Prod.fst) ha
    rw [history_append,
      hc.others a.1 fun hm => (List.nodup_append.mp hnd).2.2 _ hm _ hmem rfl, List.append_nil]
    exact h.held a (List.mem_append_right _ ha)
  settled k hk hx := by
    rw [history_append]
    by_cases hm : k ∈ xs.map Prod.fst
    · obtain ⟨a, ha, rfl⟩ := List.mem_map.mp hm
      exact hc.settled a ha _ (h.held a (List.mem_append_left _ ha)).2
    · rw [hc.others k hm, List.append_nil]
      refine h.settled k hk ?_
      rw [List.map_append, List.mem_append, not_or]
      exact ⟨hm, hx⟩
  unborn k hk := by
    rw [history_append, h.unborn k hk, hc.others, List.append_nil]
    intro hm
    obtain ⟨a, ha, rfl⟩ := List.mem_map.mp hm
    exact Nat.lt_irrefl _
      (Nat.lt_of_lt_of_le (h.held a (List.mem_append_left _ ha)).1 hk)

end Books

end Bookkeeping
