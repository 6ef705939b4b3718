import WitBindgen.Abi.Phases
import WitBindgen.Go.Operands
import WitBindgen.Wit.Canonical

/-!
# Pinning in generated Go functions

Buffers handed to the host are pinned until the host is done with them: until a sync import
returns, the subtask of an async import completes, the host has called the post-return function
of a sync export, or an async export has called `task.return`. What the host allocated for the
arguments of an export is released by `witRuntime.Unpin()`, before the user's function is called,
and is not read any more from then on.
-/

namespace WitBindgen.Go

open Trace Generator

/-! ## Calls -/

/-- The calls of a generated function: what they do, and whether nothing more is to come. A
deferred `Unpin` runs when the function is left, and the host calls a post-return function
after that. -/
inductive Generated.CallRuns (g : Generated) : List Act → Bool → Prop where
  | running {t o} : Runs Act.leaves g.body t o → CallRuns g t false
  | returned {t o} : Runs Act.leaves g.body t o → o ≠ .cut →
      CallRuns g (t ++ (if g.deferred then [Act.unpin, .exit] else [Act.exit])) !g.postReturn
  | posted {t o} : g.postReturn = true → Runs Act.leaves g.body t o → o ≠ .cut →
      CallRuns g (t ++ (if g.deferred then [Act.unpin, .exit] else [Act.exit]) ++ [Act.unpin]) true

def Act.usesPinner : Act → Bool
  | .pin | .allocate | .unpin => true
  | _ => false

/-- What the host may have to do with the buffers is over with this act. -/
def hostDone : Side → Bool → Act
  | .import_, false => .callHost
  | .import_, true => .wait
  | .export_, false => .exit
  | .export_, true => .taskReturn

/-- Nothing is loaded once the memory of the arguments is released. -/
def LoadsBefore (t : List Act) : Prop :=
  ∀ pre post, t = pre ++ Act.unpinRuntime :: post → Act.load ∉ post

/-- The pinner is used in the scope of its definition; it is unpinned when the host is done,
with nothing but the end of the function to follow, and once in a call that is over; and the
arguments' memory is read before it is released. -/
structure Disciplined (done : Act) (g : Generated) : Prop where
  defined : ∀ t b, g.CallRuns t b → ∀ pre a post, t = pre ++ a :: post → a.usesPinner →
    Act.define ∈ pre
  held : ∀ t b, g.CallRuns t b → ∀ pre post, t = pre ++ Act.unpin :: post →
    done ∈ pre ∧ ∀ a ∈ post, a = .exit
  once : ∀ t b, g.CallRuns t b → t.count Act.define ≤ 1 ∧ t.count Act.unpin ≤ t.count Act.define ∧
    (b = true → t.count Act.unpin = t.count Act.define)
  loaded : ∀ t b, g.CallRuns t b → LoadsBefore t

/-! ## The shape of a function -/

/-- The acts of a body behind the definition of its pinner, of which there is one if `d`. -/
def Act.Inner (d : Bool) (a : Act) : Prop :=
  a ≠ .define ∧ a ≠ .unpin ∧ a ≠ .exit ∧ (a = .pin ∨ a = .allocate → d = true)

/-- A body with the definition of a pinner in front, if it is used, and one way to unpin. -/
structure Shaped (done : Act) (g : Generated) (d : Bool) (rest : Text Act) : Prop where
  body : g.body = (if d then [Stmt.act Act.define] else []) ++ rest
  inner : rest.All (Act.Inner d)
  one : (g.deferred || g.postReturn) = d ∧ ¬(g.deferred = true ∧ g.postReturn = true)
  deferred : g.deferred = true → ∀ t o, Runs Act.leaves rest t o → o ≠ .cut → done ∈ t
  postReturn : g.postReturn = true → done = .exit

/-! ### Traces -/

/-- The first part that holds no `x` is in front of every `x`. -/
theorem split_of_not_mem {α : Type} {x : α} {xs ys pre post : List α} (hx : x ∉ xs)
    (h : xs ++ ys = pre ++ x :: post) : ∃ mid, pre = xs ++ mid ∧ ys = mid ++ x :: post := by
  rcases List.append_eq_append_iff.mp h with ⟨mid, rfl, hys⟩ | ⟨mid, rfl, hmid⟩
  · exact ⟨mid, rfl, hys⟩
  · cases mid with
    | nil => exact ⟨[], by simp, by rw [List.nil_append] at hmid; exact hmid.symm⟩
    | cons y mid =>
      obtain ⟨rfl, -⟩ := List.cons.inj hmid
      exact absurd (List.mem_append_right _ List.mem_cons_self) hx

theorem loadsBefore_append_left {xs t : List Act} (h : Act.unpinRuntime ∉ xs) :
    LoadsBefore (xs ++ t) ↔ LoadsBefore t := by
  refine ⟨fun hl pre post ht => hl (xs ++ pre) post (by rw [ht, List.append_assoc]),
    fun hl pre post ht => ?_⟩
  obtain ⟨mid, -, ht'⟩ := split_of_not_mem h ht
  exact hl mid post ht'

theorem loadsBefore_append_right {t ys : List Act} (h : Act.load ∉ ys) :
    LoadsBefore (t ++ ys) ↔ LoadsBefore t := by
  constructor
  · rintro hl pre post rfl hmem
    exact hl pre (post ++ ys) (by simp) (List.mem_append_left _ hmem)
  · intro hl pre post ht hmem
    rcases List.append_eq_append_iff.mp ht with ⟨mid, rfl, hys⟩ | ⟨mid, rfl, hmid⟩
    · exact h (by rw [hys]; simp [hmem])
    · cases mid with
      | nil =>
        rw [List.nil_append] at hmid
        exact h (by rw [← hmid]; exact List.mem_cons_of_mem _ hmem)
      | cons y mid =>
        obtain ⟨rfl, rfl⟩ := List.cons.inj hmid
        rcases List.mem_append.mp hmem with hmem | hmem
        · exact hl pre mid rfl hmem
        · exact h hmem

theorem loadsBefore_of_not_mem {t : List Act} (h : Act.unpinRuntime ∉ t) : LoadsBefore t := by
  rintro pre post rfl
  exact absurd (by simp) h

section
variable {done : Act} {g : Generated} {d : Bool} {rest : Text Act}

theorem Shaped.runs (h : Shaped done g d rest) {t : List Act} {o : Outcome}
    (hr : Runs Act.leaves g.body t o) : t = [] ∧ o = .cut ∨
      ∃ t', t = (if d then [Act.define] else []) ++ t' ∧ Runs Act.leaves rest t' o := by
  rw [h.body] at hr
  cases d with
  | false => exact .inr ⟨t, rfl, hr⟩
  | true =>
    cases hr with
    | cut => exact .inl ⟨rfl, rfl⟩
    | act _ hr => exact .inr ⟨_, rfl, hr⟩
    | leave ha => cases ha

/-- The ends of a call: none yet, the end of the function with its deferred `Unpin`, and the
post-return function after that. -/
inductive Ends (g : Generated) : Outcome → List Act → Bool → Prop where
  | running {o} : Ends g o [] false
  | deferred {o} : o ≠ .cut → g.deferred = true → Ends g o [Act.unpin, .exit] true
  | returned {o} : o ≠ .cut → g.deferred = false → Ends g o [Act.exit] !g.postReturn
  | posted {o} : o ≠ .cut → g.postReturn = true → Ends g o [Act.exit, .unpin] true

theorem Shaped.callRuns (h : Shaped done g d rest) {t : List Act} {b : Bool}
    (hc : g.CallRuns t b) : t = [] ∧ b = false ∨ ∃ t' o ending,
      t = (if d then [Act.define] else []) ++ (t' ++ ending) ∧ Runs Act.leaves rest t' o ∧
        Ends g o ending b := by
  obtain ⟨hone, hnot⟩ := h.one
  cases hc with
  | running hr =>
    rcases h.runs hr with ⟨rfl, -⟩ | ⟨t', rfl, hr'⟩
    · exact .inl ⟨rfl, rfl⟩
    · exact .inr ⟨t', _, [], by rw [List.append_nil], hr', .running⟩
  | @returned t₀ o hr ho =>
    rcases h.runs hr with ⟨-, rfl⟩ | ⟨t', rfl, hr'⟩
    · exact absurd rfl ho
    · refine .inr ⟨t', o, _, List.append_assoc .., hr', ?_⟩
      cases hd : g.deferred with
      | false => exact .returned ho hd
      | true =>
        have hpost : g.postReturn = false := by
          simpa [hd] using hnot
        rw [hpost]
        exact .deferred ho hd
  | @posted t₀ o hp hr ho =>
    rcases h.runs hr with ⟨-, rfl⟩ | ⟨t', rfl, hr'⟩
    · exact absurd rfl ho
    · have hd : g.deferred = false := by
        cases hd : g.deferred with
        | false => rfl
        | true => exact absurd ⟨hd, hp⟩ hnot
      refine .inr ⟨t', o, [Act.exit, .unpin], ?_, hr', .posted ho hp⟩
      rw [hd, List.append_assoc, List.append_assoc]
      rfl

theorem Shaped.defined (h : Shaped done g d rest) {t : List Act} {b : Bool}
    (hc : g.CallRuns t b) {pre post : List Act} {a : Act} (ht : t = pre ++ a :: post)
    (ha : a.usesPinner) : Act.define ∈ pre := by
  rcases h.callRuns hc with ⟨rfl, -⟩ | ⟨t', o, ending, rfl, hr, hends⟩
  · simp at ht
  · have hd : d = true := by
      have hmem : a ∈ (if d then [Act.define] else []) ++ (t' ++ ending) := by rw [ht]; simp
      rcases List.mem_append.mp hmem with hmem | hmem
      · cases d with
        | false => cases hmem
        | true => rfl
      · rcases List.mem_append.mp hmem with hmem | hmem
        · have hinner := hr.all h.inner a hmem
          cases a with
          | pin => exact hinner.2.2.2 (.inl rfl)
          | allocate => exact hinner.2.2.2 (.inr rfl)
          | unpin => exact absurd rfl hinner.2.1
          | _ => cases ha
        · rw [← h.one.1]
          cases hends with
          | running => cases hmem
          | deferred _ hd => rw [hd]; rfl
          | returned => rw [List.mem_singleton.mp hmem] at ha; cases ha
          | posted _ hp => rw [hp, Bool.or_true]
    rw [hd] at ht
    cases pre with
    | nil => obtain ⟨rfl, -⟩ := List.cons.inj ht; cases ha
    | cons p pre => obtain ⟨rfl, -⟩ := List.cons.inj ht; exact List.mem_cons_self

theorem Shaped.not_mem_unpin (h : Shaped done g d rest) {t' : List Act} {o : Outcome}
    (hr : Runs Act.leaves rest t' o) : Act.unpin ∉ (if d then [Act.define] else []) ++ t' := by
  intro hmem
  rcases List.mem_append.mp hmem with hmem | hmem
  · cases d with
    | false => cases hmem
    | true => cases List.mem_singleton.mp hmem
  · exact (hr.all h.inner _ hmem).2.1 rfl

theorem Shaped.held (h : Shaped done g d rest) {t : List Act} {b : Bool} (hc : g.CallRuns t b)
    {pre post : List Act} (ht : t = pre ++ Act.unpin :: post) :
    done ∈ pre ∧ ∀ a ∈ post, a = .exit := by
  rcases h.callRuns hc with ⟨rfl, -⟩ | ⟨t', o, ending, rfl, hr, hends⟩
  · simp at ht
  · rw [← List.append_assoc] at ht
    obtain ⟨mid, rfl, hend⟩ := split_of_not_mem (h.not_mem_unpin hr) ht
    cases hends with
    | running => simp at hend
    | deferred ho hd =>
      cases mid with
      | nil =>
        obtain ⟨-, rfl⟩ := List.cons.inj hend
        have hdone := h.deferred hd _ _ hr ho
        exact ⟨by simp [hdone], List.forall_mem_singleton.mpr rfl⟩
      | cons m mid =>
        obtain ⟨-, hend⟩ := List.cons.inj hend
        cases mid with
        | nil => cases hend
        | cons m mid => simp at hend
    | returned =>
      cases mid with
      | nil => cases hend
      | cons m mid => simp at hend
    | posted ho hp =>
      cases mid with
      | nil => cases hend
      | cons m mid =>
        obtain ⟨rfl, hlast⟩ := List.cons.inj hend
        cases mid with
        | nil =>
          obtain ⟨-, rfl⟩ := List.cons.inj hlast
          rw [h.postReturn hp]
          exact ⟨by simp, nofun⟩
        | cons m mid => simp at hlast

theorem Shaped.once (h : Shaped done g d rest) {t : List Act} {b : Bool} (hc : g.CallRuns t b) :
    t.count Act.define ≤ 1 ∧ t.count Act.unpin ≤ t.count Act.define ∧
      (b = true → t.count Act.unpin = t.count Act.define) := by
  rcases h.callRuns hc with ⟨rfl, rfl⟩ | ⟨t', o, ending, rfl, hr, hends⟩
  · exact ⟨by simp, by simp, nofun⟩
  · have hdefine : t'.count Act.define = 0 :=
      List.count_eq_zero.mpr fun hmem => (hr.all h.inner _ hmem).1 rfl
    have hunpin : t'.count Act.unpin = 0 :=
      List.count_eq_zero.mpr fun hmem => (hr.all h.inner _ hmem).2.1 rfl
    have hone := h.one.1
    cases hends with
    | running => cases d <;> simp [hdefine, hunpin]
    | deferred ho hd =>
      obtain rfl : d = true := by rw [← hone, hd]; rfl
      simp [hdefine, hunpin]
    | returned ho hd =>
      rw [hd, Bool.false_or] at hone
      rw [hone]
      cases d <;> simp [hdefine, hunpin]
    | posted ho hp =>
      obtain rfl : d = true := by rw [← hone, hp, Bool.or_true]
      simp [hdefine, hunpin]

/-- What is loaded where is a matter of the body alone. -/
theorem Shaped.loaded_iff (h : Shaped done g d rest) :
    (∀ t b, g.CallRuns t b → LoadsBefore t) ↔
      ∀ t o, Runs Act.leaves rest t o → LoadsBefore t := by
  have hdefs : Act.unpinRuntime ∉ (if d then [Act.define] else []) := by cases d <;> simp
  constructor
  · intro hl t o hr
    have hbody : Runs Act.leaves g.body ((if d then [Act.define] else []) ++ t) o := by
      rw [h.body]
      cases d with
      | false => exact hr
      | true => exact .act rfl hr
    exact (loadsBefore_append_left hdefs).mp (hl _ _ (.running hbody))
  · intro hl t b hc
    rcases h.callRuns hc with ⟨rfl, -⟩ | ⟨t', o, ending, rfl, hr, hends⟩
    · exact loadsBefore_of_not_mem List.not_mem_nil
    · rw [loadsBefore_append_left hdefs, loadsBefore_append_right]
      · exact hl t' o hr
      · cases hends <;> simp

theorem Shaped.disciplined_iff (h : Shaped done g d rest) :
    Disciplined done g ↔ ∀ t o, Runs Act.leaves rest t o → LoadsBefore t := by
  rw [← h.loaded_iff]
  exact ⟨Disciplined.loaded, fun hl =>
    ⟨fun t b hc pre a post => h.defined hc, fun t b hc pre post => h.held hc,
      fun t b => h.once, hl⟩⟩

end

end WitBindgen.Go
