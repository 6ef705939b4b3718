import Mathlib.Data.List.Basic

/-!
# Texts and the traces of their runs

The text of a function, reduced to what its execution can be observed to do: acts one after
the other, one of several arms, a body run any number of times. Some acts leave the function.
A run of a text is a list of acts with the way it ended; a run may be cut off anywhere, so
that the runs of a text are closed under initial parts.
-/

namespace Trace

variable {α : Type}

inductive Stmt (α : Type) where
  | act (a : α)
  | branch (arms : List (List (Stmt α)))
  | loop (body : List (Stmt α))

abbrev Text (α : Type) := List (Stmt α)

def Text.acts (as : List α) : Text α := as.map .act

/-- How a run ended: cut off, at the end of the text, or by an act that leaves. -/
inductive Outcome where
  | cut
  | fell
  | left
deriving DecidableEq

inductive Runs (leaves : α → Bool) : Text α → List α → Outcome → Prop where
  | cut {ss} : Runs leaves ss [] .cut
  | done : Runs leaves [] [] .fell
  | act {a ss t o} : leaves a = false → Runs leaves ss t o →
      Runs leaves (.act a :: ss) (a :: t) o
  | leave {a ss} : leaves a = true → Runs leaves (.act a :: ss) [a] .left
  | branch {arms ss arm t o} : arm ∈ arms → Runs leaves (arm ++ ss) t o →
      Runs leaves (.branch arms :: ss) t o
  | stop {body ss t o} : Runs leaves ss t o → Runs leaves (.loop body :: ss) t o
  | turn {body ss t o} : Runs leaves (body ++ .loop body :: ss) t o →
      Runs leaves (.loop body :: ss) t o

/-- Every act in the statement satisfies `p`. -/
inductive Stmt.All (p : α → Prop) : Stmt α → Prop where
  | act {a} : p a → All p (.act a)
  | branch {arms} : (∀ arm ∈ arms, ∀ s ∈ arm, All p s) → All p (.branch arms)
  | loop {body} : (∀ s ∈ body, All p s) → All p (.loop body)

def Text.All (p : α → Prop) (ss : Text α) : Prop := ∀ s ∈ ss, s.All p

/-- Every branch in the statement has an arm. -/
inductive Stmt.Inhabited : Stmt α → Prop where
  | act {a} : Inhabited (.act a)
  | branch {arms} : arms ≠ [] → (∀ arm ∈ arms, ∀ s ∈ arm, Inhabited s) → Inhabited (.branch arms)
  | loop {body} : (∀ s ∈ body, Inhabited s) → Inhabited (.loop body)

def Text.Inhabited (ss : Text α) : Prop := ∀ s ∈ ss, s.Inhabited

/-! ## Texts inside texts -/

/-- Adding to the innermost text. -/
theorem extend_last {xs ys ts : List (Text α)} {x y t u : Text α}
    (h : xs ++ [x] = ys ++ (y ++ t) :: ts) : ∃ t' ts', ts'.length = ts.length ∧
      xs ++ [x ++ u] = ys ++ (y ++ t') :: ts' ∧
      ∀ v ∈ t' :: ts', v ∈ t :: ts ∨ ∃ w ∈ t :: ts, v = w ++ u := by
  rcases List.eq_nil_or_concat ts with rfl | ⟨ts', v, rfl⟩
  · obtain ⟨rfl, hx⟩ := List.append_inj' h rfl
    obtain ⟨rfl, -⟩ := List.cons.inj hx
    refine ⟨t ++ u, [], rfl, by rw [List.append_assoc], fun w hw => .inr ⟨t, by simp, ?_⟩⟩
    exact List.mem_singleton.mp hw
  · rw [List.concat_eq_append, ← List.cons_append, ← List.append_assoc] at h
    obtain ⟨rfl, hx⟩ := List.append_inj' h rfl
    obtain ⟨rfl, -⟩ := List.cons.inj hx
    refine ⟨t, ts' ++ [x ++ u], by simp, by simp, fun w hw => ?_⟩
    rcases List.mem_append.mp (List.cons_append ▸ hw : w ∈ (t :: ts') ++ [x ++ u]) with hw | hw
    · exact .inl (by
        rw [List.concat_eq_append, ← List.cons_append]
        exact List.mem_append_left _ hw)
    · exact .inr ⟨x, by simp, List.mem_singleton.mp hw⟩

/-! ## Texts of one kind -/

section
variable {p q : α → Prop} {ss ss' : Text α}

namespace Text

theorem All.nil : All p [] := nofun

theorem All.cons {s : Stmt α} (h : s.All p) (h' : All p ss) : All p (s :: ss) :=
  List.forall_mem_cons.mpr ⟨h, h'⟩

theorem All.append (h : All p ss) (h' : All p ss') : All p (ss ++ ss') :=
  List.forall_mem_append.mpr ⟨h, h'⟩

theorem All.single {a : α} (h : p a) : All p [.act a] := .cons (.act h) .nil

theorem All.acts {as : List α} (h : ∀ a ∈ as, p a) : All p (acts as) := by
  intro s hs
  obtain ⟨a, ha, rfl⟩ := List.mem_map.mp hs
  exact .act (h a ha)

theorem All.branch {arms : List (Text α)} (h : ∀ arm ∈ arms, All p arm) : All p [.branch arms] :=
  .cons (.branch h) .nil

theorem All.loop (h : All p ss) : All p [.loop ss] := .cons (.loop h) .nil

theorem Inhabited.nil : Inhabited ([] : Text α) := nofun

theorem Inhabited.cons {s : Stmt α} (h : s.Inhabited) (h' : Inhabited ss) : Inhabited (s :: ss) :=
  List.forall_mem_cons.mpr ⟨h, h'⟩

theorem Inhabited.append (h : Inhabited ss) (h' : Inhabited ss') : Inhabited (ss ++ ss') :=
  List.forall_mem_append.mpr ⟨h, h'⟩

theorem Inhabited.acts (as : List α) : Inhabited (acts as) := by
  intro s hs
  obtain ⟨a, -, rfl⟩ := List.mem_map.mp hs
  exact .act

theorem Inhabited.branch {arms : List (Text α)} (hne : arms ≠ []) (h : ∀ arm ∈ arms, Inhabited arm) :
    Inhabited [.branch arms] := .cons (.branch hne h) .nil

theorem Inhabited.loop (h : Inhabited ss) : Inhabited [.loop ss] := .cons (.loop h) .nil

end Text

theorem Stmt.All.mono (hpq : ∀ a, p a → q a) {s : Stmt α} (h : s.All p) : s.All q := by
  induction h with
  | act ha => exact .act (hpq _ ha)
  | branch _ ih => exact .branch ih
  | loop _ ih => exact .loop ih

theorem Text.All.mono (hpq : ∀ a, p a → q a) (h : All p ss) : All q ss :=
  fun s hs => (h s hs).mono hpq

end

/-! ## Runs -/

section
variable {leaves : α → Bool} {ss ss' : Text α} {t t' : List α} {o : Outcome} {p : α → Prop}

namespace Runs

/-- Whatever holds of the acts of a text holds of what its runs do. -/
theorem all (h : Runs leaves ss t o) (hss : ss.All p) : ∀ a ∈ t, p a := by
  induction h with
  | cut => nofun
  | done => nofun
  | act _ _ ih =>
    obtain ⟨h, hss⟩ := List.forall_mem_cons.mp hss
    cases h with
    | act ha => exact List.forall_mem_cons.mpr ⟨ha, ih hss⟩
  | leave =>
    obtain ⟨h, -⟩ := List.forall_mem_cons.mp hss
    cases h with
    | act ha => exact List.forall_mem_singleton.mpr ha
  | branch harm _ ih =>
    obtain ⟨h, hss⟩ := List.forall_mem_cons.mp hss
    cases h with
    | branch harms => exact ih (List.forall_mem_append.mpr ⟨harms _ harm, hss⟩)
  | stop _ ih => exact ih (List.forall_mem_cons.mp hss).2
  | turn _ ih =>
    have hbody := (List.forall_mem_cons.mp hss).1
    cases hbody with
    | loop hbody => exact ih (List.forall_mem_append.mpr ⟨hbody, hss⟩)

/-- A text that leaves nowhere is run to its end, or cut off. -/
theorem not_left (h : Runs leaves ss t o) (hss : ss.All (leaves · = false)) : o ≠ .left := by
  induction h with
  | cut => nofun
  | done => nofun
  | act _ _ ih => exact ih (List.forall_mem_cons.mp hss).2
  | leave ha =>
    obtain ⟨h, -⟩ := List.forall_mem_cons.mp hss
    cases h with
    | act hno => rw [hno] at ha; cases ha
  | branch harm _ ih =>
    obtain ⟨h, hss⟩ := List.forall_mem_cons.mp hss
    cases h with
    | branch harms => exact ih (List.forall_mem_append.mpr ⟨harms _ harm, hss⟩)
  | stop _ ih => exact ih (List.forall_mem_cons.mp hss).2
  | turn _ ih =>
    have hbody := (List.forall_mem_cons.mp hss).1
    cases hbody with
    | loop hbody => exact ih (List.forall_mem_append.mpr ⟨hbody, hss⟩)

theorem append (h : Runs leaves ss t .fell) (h' : Runs leaves ss' t' o) :
    Runs leaves (ss ++ ss') (t ++ t') o := by
  generalize hf : Outcome.fell = f at h
  induction h with
  | cut => cases hf
  | done => exact h'
  | act ha _ ih => exact .act ha (ih hf)
  | leave => cases hf
  | branch harm _ ih =>
    refine .branch harm ?_
    have hrun := ih hf
    rwa [List.append_assoc] at hrun
  | stop _ ih => exact .stop (ih hf)
  | turn _ ih =>
    refine .turn ?_
    have hrun := ih hf
    rwa [List.append_assoc] at hrun

/-- A run of two texts is a run of the first that did not reach its end, or a whole run of
the first and a run of the second. -/
theorem of_append (h : Runs leaves (ss ++ ss') t o) :
    (o ≠ .fell ∧ Runs leaves ss t o) ∨
      ∃ t₁ t₂, t = t₁ ++ t₂ ∧ Runs leaves ss t₁ .fell ∧ Runs leaves ss' t₂ o := by
  generalize hx : ss ++ ss' = x at h
  induction h generalizing ss with
  | cut => exact .inl ⟨nofun, .cut⟩
  | done =>
    obtain ⟨rfl, rfl⟩ := List.append_eq_nil_iff.mp hx
    exact .inr ⟨[], [], rfl, .done, .done⟩
  | @act a rest t o ha hrest ih =>
    cases ss with
    | nil => subst hx; exact .inr ⟨[], _, rfl, .done, .act ha hrest⟩
    | cons s ss =>
      obtain ⟨rfl, hx'⟩ := List.cons.inj hx
      rcases ih hx' with ⟨ho, hrun⟩ | ⟨t₁, t₂, rfl, h₁, h₂⟩
      · exact .inl ⟨ho, .act ha hrun⟩
      · exact .inr ⟨a :: t₁, t₂, rfl, .act ha h₁, h₂⟩
  | @leave a rest ha =>
    cases ss with
    | nil => subst hx; exact .inr ⟨[], _, rfl, .done, .leave ha⟩
    | cons s ss =>
      obtain ⟨rfl, -⟩ := List.cons.inj hx
      exact .inl ⟨nofun, .leave ha⟩
  | @branch arms rest arm t o harm hrest ih =>
    cases ss with
    | nil => subst hx; exact .inr ⟨[], _, rfl, .done, .branch harm hrest⟩
    | cons s ss =>
      obtain ⟨rfl, rfl⟩ := List.cons.inj hx
      have hx : (arm ++ ss) ++ ss' = arm ++ (ss ++ ss') := List.append_assoc ..
      rcases ih hx with ⟨ho, hrun⟩ | ⟨t₁, t₂, rfl, h₁, h₂⟩
      · exact .inl ⟨ho, .branch harm hrun⟩
      · exact .inr ⟨t₁, t₂, rfl, .branch harm h₁, h₂⟩
  | @stop body rest t o hrest ih =>
    cases ss with
    | nil => subst hx; exact .inr ⟨[], _, rfl, .done, .stop hrest⟩
    | cons s ss =>
      obtain ⟨rfl, rfl⟩ := List.cons.inj hx
      rcases ih rfl with ⟨ho, hrun⟩ | ⟨t₁, t₂, rfl, h₁, h₂⟩
      · exact .inl ⟨ho, .stop hrun⟩
      · exact .inr ⟨t₁, t₂, rfl, .stop h₁, h₂⟩
  | @turn body rest t o hrest ih =>
    cases ss with
    | nil => subst hx; exact .inr ⟨[], _, rfl, .done, .turn hrest⟩
    | cons s ss =>
      obtain ⟨rfl, rfl⟩ := List.cons.inj hx
      have hx : (body ++ .loop body :: ss) ++ ss' = body ++ .loop body :: (ss ++ ss') :=
        List.append_assoc ..
      rcases ih hx with ⟨ho, hrun⟩ | ⟨t₁, t₂, rfl, h₁, h₂⟩
      · exact .inl ⟨ho, .turn hrun⟩
      · exact .inr ⟨t₁, t₂, rfl, .turn h₁, h₂⟩

/-- A whole run starts with the acts that the text starts with. -/
theorem acts_inv {as : List α} (has : ∀ a ∈ as, leaves a = false)
    (h : Runs leaves (Text.acts as ++ ss) t o) (ho : o ≠ .cut) :
    ∃ t', t = as ++ t' ∧ Runs leaves ss t' o := by
  induction as generalizing t with
  | nil => exact ⟨t, rfl, h⟩
  | cons a as ih =>
    cases h with
    | cut => exact absurd rfl ho
    | act _ h =>
      obtain ⟨t', rfl, hrun⟩ := ih (fun b hb => has b (List.mem_cons_of_mem _ hb)) h
      exact ⟨t', rfl, hrun⟩
    | leave ha => rw [has a List.mem_cons_self] at ha; cases ha

/-- Acts of which only the last may leave are all done in a whole run. -/
theorem acts_whole {as : List α} (has : ∀ a ∈ as.dropLast, leaves a = false)
    (h : Runs leaves (Text.acts as) t o) (ho : o ≠ .cut) : t = as := by
  induction as generalizing t with
  | nil =>
    cases h with
    | cut => exact absurd rfl ho
    | done => rfl
  | cons a as ih =>
    cases h with
    | cut => exact absurd rfl ho
    | act _ h =>
      rw [ih (fun b hb => has b ?_) h]
      cases as with
      | nil => cases hb
      | cons => exact List.mem_cons_of_mem _ hb
    | leave ha =>
      cases as with
      | nil => rfl
      | cons => rw [has a List.mem_cons_self] at ha; cases ha

/-- A whole run of a text that leaves nowhere is followed by one of the rest. -/
theorem of_append_whole (hss : ss.All (leaves · = false)) (h : Runs leaves (ss ++ ss') t o)
    (ho : o ≠ .cut) : ∃ t₁ t₂, t = t₁ ++ t₂ ∧ Runs leaves ss t₁ .fell ∧ Runs leaves ss' t₂ o := by
  rcases h.of_append with ⟨hne, hrun⟩ | h
  · have hleft := hrun.not_left hss
    cases o with
    | cut => exact absurd rfl ho
    | fell => exact absurd rfl hne
    | left => exact absurd rfl hleft
  · exact h

/-- A text whose branches have arms and that leaves nowhere can be run to its end. -/
theorem exists_fell (hss : ss.Inhabited) (hleaves : ss.All (leaves · = false)) :
    ∃ t, Runs leaves ss t .fell := by
  have hstmt : ∀ s : Stmt α, s.Inhabited → s.All (leaves · = false) →
      ∃ t, Runs leaves [s] t .fell := by
    intro s hs
    induction hs with
    | @act a =>
      intro hall
      cases hall with
      | act ha => exact ⟨[a], .act ha .done⟩
    | @branch arms hne _ ih =>
      intro hall
      cases hall with
      | branch hall =>
        obtain ⟨arm, harm⟩ := List.exists_mem_of_ne_nil arms hne
        have hrun : ∃ t, Runs leaves arm t .fell := by
          have hall' := hall arm harm
          have ih' := ih arm harm
          clear hall ih harm
          induction arm with
          | nil => exact ⟨[], .done⟩
          | cons s arm iharm =>
            obtain ⟨t₁, h₁⟩ := ih' s List.mem_cons_self (hall' s List.mem_cons_self)
            obtain ⟨t₂, h₂⟩ := iharm (fun r hr => hall' r (List.mem_cons_of_mem _ hr))
              fun r hr => ih' r (List.mem_cons_of_mem _ hr)
            exact ⟨t₁ ++ t₂, h₁.append h₂⟩
        obtain ⟨t, ht⟩ := hrun
        exact ⟨t, .branch harm (by rwa [List.append_nil])⟩
    | loop => exact fun _ => ⟨[], .stop .done⟩
  induction ss with
  | nil => exact ⟨[], .done⟩
  | cons s ss ih =>
    obtain ⟨hs, hss⟩ := List.forall_mem_cons.mp hss
    obtain ⟨hl, hleaves⟩ := List.forall_mem_cons.mp hleaves
    obtain ⟨t₁, h₁⟩ := hstmt s hs hl
    obtain ⟨t₂, h₂⟩ := ih hss hleaves
    exact ⟨t₁ ++ t₂, h₁.append h₂⟩

end Runs

end

end Trace
