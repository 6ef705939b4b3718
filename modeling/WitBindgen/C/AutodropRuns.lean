import WitBindgen.C.AutodropPlaces
import WitBindgen.Machine.RoundTrip
import WitBindgen.Wit.Canonical

/-!
# Every borrow is dropped once

The locals that lifting a value adds are fresh and used once each. Run on a value, the
code puts every borrow of an imported resource that is in it into one of them, and
leaves the others at zero: those of cases that the value does not have. So the drops of
`Return` give back exactly these borrows. An asynchronous function has no `Return`, and
nobody declares the locals.
-/

namespace WitBindgen.C.Autodrop

open Heap

/-! ## What lifting adds -/

/-- The code `stmts` has been emitted between two states: `new` are the locals it
assigns, fresh and one for each place where a borrow is lifted. -/
structure Lifted (holds : Prop) (s s' : FunctionBindgen) (stmts : List Stmt) (new : List (String × TypeId)) :
    Prop where
  borrows : s'.borrows = s.borrows ++ new
  decls : s'.borrowDecls = s.borrowDecls ++ new.map (·.1)
  defined : s.locals.defined ⊆ s'.locals.defined
  fresh : ∀ x ∈ new, x.1 ∉ s.locals.defined
  taken : ∀ x ∈ new, x.1 ∈ s'.locals.defined
  nodup : (new.map (·.1)).Nodup
  uses : ∀ name, name ∈ usesAll stmts ↔ name ∈ new.map (·.1)
  plain : ∀ name, .declare name ∉ stmts
  some : new ≠ [] ↔ holds

theorem usesAll_append (xs ys : List Stmt) : usesAll (xs ++ ys) = usesAll xs ++ usesAll ys := by
  induction xs with
  | nil => rfl
  | cons x xs ih => rw [List.cons_append, usesAll, usesAll, ih, List.append_assoc]

theorem usesCases_flatten (blocks : List (List Stmt)) : usesCases blocks = usesAll blocks.flatten := by
  induction blocks with
  | nil => rfl
  | cons b blocks ih => rw [usesCases, List.flatten_cons, usesAll_append, ih]

namespace Lifted

variable {holds holds' : Prop} {s s₁ s' : FunctionBindgen} {stmts stmts' : List Stmt}
  {new new' : List (String × TypeId)}

theorem nil (h : ¬holds) : Lifted holds s s [] [] where
  borrows := (List.append_nil _).symm
  decls := (List.append_nil _).symm
  defined := List.Subset.refl _
  fresh := nofun
  taken := nofun
  nodup := .nil
  uses _ := by simp [usesAll]
  plain _ := List.not_mem_nil
  some := by simpa using h

theorem congr (h : Lifted holds s s' stmts new) (hiff : holds ↔ holds') : Lifted holds' s s' stmts new :=
  ⟨h.borrows, h.decls, h.defined, h.fresh, h.taken, h.nodup, h.uses, h.plain, h.some.trans hiff⟩

theorem append (h : Lifted holds s s₁ stmts new) (h' : Lifted holds' s₁ s' stmts' new') :
    Lifted (holds ∨ holds') s s' (stmts ++ stmts') (new ++ new') where
  borrows := by rw [h'.borrows, h.borrows, List.append_assoc]
  decls := by rw [h'.decls, h.decls, List.map_append, List.append_assoc]
  defined _ hx := h'.defined (h.defined hx)
  fresh x hx := by
    rcases List.mem_append.mp hx with hx | hx
    · exact h.fresh x hx
    · exact fun hmem => h'.fresh x hx (h.defined hmem)
  taken x hx := by
    rcases List.mem_append.mp hx with hx | hx
    · exact h'.defined (h.taken x hx)
    · exact h'.taken x hx
  nodup := by
    rw [List.map_append]
    refine List.nodup_append.mpr ⟨h.nodup, h'.nodup, ?_⟩
    rintro a ha b hb rfl
    obtain ⟨x, hx, rfl⟩ := List.mem_map.mp ha
    obtain ⟨y, hy, hyx⟩ := List.mem_map.mp hb
    exact h'.fresh y hy (hyx ▸ h.taken x hx)
  uses name := by
    rw [usesAll_append, List.mem_append, List.map_append, List.mem_append, h.uses, h'.uses]
  plain name hmem := (List.mem_append.mp hmem).elim (h.plain name) (h'.plain name)
  some := by
    rw [← h.some, ← h'.some, Ne, List.append_eq_nil_iff]
    tauto

/-- Code without borrows may be thrown away. -/
theorem discard (h : Lifted holds s s' stmts new) (hnone : ¬holds) : Lifted holds s s' [] [] := by
  obtain rfl : new = [] := by simpa using mt h.some.mp hnone
  exact ⟨h.borrows, h.decls, h.defined, nofun, nofun, .nil, (Lifted.nil (s := s) hnone).uses, nofun, h.some⟩

/-- A temporary that is no borrow. -/
theorem tmp (h : Lifted holds s s' stmts new) (name : String) :
    Lifted holds s { s' with locals := (s'.locals.tmpName name).2 } stmts new :=
  ⟨h.borrows, h.decls, fun _ hx => List.mem_cons_of_mem _ (h.defined hx), h.fresh,
    fun x hx => List.mem_cons_of_mem _ (h.taken x hx), h.nodup, h.uses, h.plain, h.some⟩

/-- The arms of a `switch` use what its blocks use. -/
theorem switch {blocks : List (List Stmt)} (h : Lifted holds s s' blocks.flatten new) (op : Expr) :
    Lifted holds s s' [.switch op blocks] new :=
  ⟨h.borrows, h.decls, h.defined, h.fresh, h.taken, h.nodup,
    fun name => by rw [usesAll, usesAll, Stmt.uses, usesCases_flatten, List.append_nil]; exact h.uses name,
    fun name hmem => (nomatch List.mem_singleton.mp hmem), h.some⟩

end Lifted

/-! ## What the code writes -/

/-- The handles that locals hold, where they hold one. -/
def held (locals : String → Option (BitVec 32)) (new : List (String × TypeId)) : List (TypeId × BitVec 32) :=
  new.filterMap fun x => (locals x.1).bind fun h => if h = 0 then none else some (x.2, h)

/-- The code `stmts` finds the locals `new` at zero, assigns some of them and nothing
else, and leaves `borrows` in them. -/
def Writes (p : Nat) (args : Args) (stmts : List Stmt) (new : List (String × TypeId))
    (borrows : List (TypeId × BitVec 32)) : Prop :=
  ∀ fr, (∀ x ∈ new, fr.locals x.1 = some 0) → ∃ fr', runAll p args stmts fr = some fr' ∧
    fr'.effects = fr.effects ∧ (∀ name, name ∉ new.map (·.1) → fr'.locals name = fr.locals name) ∧
    (∀ x ∈ new, fr'.locals x.1 ≠ none) ∧ held fr'.locals new = borrows

theorem held_congr {locals locals' : String → Option (BitVec 32)} {new : List (String × TypeId)}
    (h : ∀ x ∈ new, locals x.1 = locals' x.1) : held locals new = held locals' new :=
  List.filterMap_congr fun x hx => by rw [h x hx]

theorem held_append (locals : String → Option (BitVec 32)) (new new' : List (String × TypeId)) :
    held locals (new ++ new') = held locals new ++ held locals new' :=
  List.filterMap_append

theorem runAll_append (p : Nat) (args : Args) (xs ys : List Stmt) (fr : Frame) :
    runAll p args (xs ++ ys) fr = (runAll p args xs fr).bind (runAll p args ys) := by
  induction xs generalizing fr with
  | nil => rfl
  | cons x xs ih =>
    rw [List.cons_append, runAll, runAll]
    cases x.run p args fr with
    | none => rfl
    | some fr₁ => exact ih fr₁

theorem runAll_singleton (p : Nat) (args : Args) (s : Stmt) (fr : Frame) :
    runAll p args [s] fr = s.run p args fr := by
  rw [runAll]
  cases s.run p args fr <;> rfl

theorem runCase_getElem (p : Nat) (args : Args) {blocks : List (List Stmt)} {d : Nat} {block : List Stmt}
    (h : blocks[d]? = some block) (fr : Frame) : runCase p args blocks d fr = runAll p args block fr := by
  induction blocks generalizing d with
  | nil =>
    rw [List.getElem?_nil] at h
    cases h
  | cons b blocks ih =>
    cases d with
    | zero =>
      cases h
      rw [runCase]
    | succ d =>
      rw [runCase]
      exact ih (by simpa using h)

namespace Writes

variable {p : Nat} {args : Args} {stmts stmts' : List Stmt} {new new' : List (String × TypeId)}
  {borrows borrows' : List (TypeId × BitVec 32)}

/-- Locals that nobody assigns hold nothing. -/
theorem nil (new : List (String × TypeId)) : Writes p args [] new [] := by
  intro fr hzero
  refine ⟨fr, rfl, rfl, fun _ _ => rfl, fun x hx => by rw [hzero x hx]; nofun, ?_⟩
  refine List.filterMap_eq_nil_iff.mpr fun x hx => ?_
  rw [hzero x hx]
  rfl

theorem append (hnodup : ((new ++ new').map (·.1)).Nodup) (h : Writes p args stmts new borrows)
    (h' : Writes p args stmts' new' borrows') :
    Writes p args (stmts ++ stmts') (new ++ new') (borrows ++ borrows') := by
  intro fr hzero
  rw [List.map_append] at hnodup
  have hdisj := (List.nodup_append.mp hnodup).2.2
  have hnew : ∀ x ∈ new', x.1 ∉ new.map (·.1) :=
    fun x hx hmem => hdisj _ hmem _ (List.mem_map_of_mem hx) rfl
  have hnew' : ∀ x ∈ new, x.1 ∉ new'.map (·.1) :=
    fun x hx hmem => hdisj _ (List.mem_map_of_mem hx) _ hmem rfl
  obtain ⟨fr₁, hrun₁, heff₁, hframe₁, hlive₁, hheld₁⟩ :=
    h fr fun x hx => hzero x (List.mem_append_left _ hx)
  obtain ⟨fr₂, hrun₂, heff₂, hframe₂, hlive₂, hheld₂⟩ := h' fr₁ fun x hx => by
    rw [hframe₁ _ (hnew x hx)]
    exact hzero x (List.mem_append_right _ hx)
  refine ⟨fr₂, ?_, heff₂.trans heff₁, fun name hname => ?_, fun x hx => ?_, ?_⟩
  · rw [runAll_append, hrun₁]
    exact hrun₂
  · rw [List.map_append, List.mem_append, not_or] at hname
    rw [hframe₂ name hname.2, hframe₁ name hname.1]
  · rcases List.mem_append.mp hx with hx | hx
    · rw [hframe₂ _ (hnew' x hx)]
      exact hlive₁ x hx
    · exact hlive₂ x hx
  · rw [held_append, hheld₂, ← hheld₁]
    exact congrArg (· ++ borrows') (held_congr fun x hx => hframe₂ _ (hnew' x hx))

theorem switch {blocks : List (List Stmt)} {op : Expr} {word : Word} {d : Nat} {block : List Stmt}
    (hop : op.eval p args = some word) (hbits : bitsOf .i32 [word] = some d) (hblock : blocks[d]? = some block)
    (h : Writes p args block new borrows) : Writes p args [.switch op blocks] new borrows := by
  intro fr hzero
  obtain ⟨fr', hrun, hrest⟩ := h fr hzero
  refine ⟨fr', ?_, hrest⟩
  rw [runAll_singleton, Stmt.run, hop, Option.bind_eq_bind, Option.bind_some, Option.bind_eq_bind, hbits,
    Option.bind_some, runCase_getElem p args hblock, hrun]

/-- A borrow in its own local. -/
theorem assign {op : Expr} {word : Word} {n : Nat} {name : String} {resource : TypeId}
    (hop : op.eval p args = some word) (hbits : bitsOf .i32 [word] = some n) (hne : BitVec.ofNat 32 n ≠ 0) :
    Writes p args [.assign name op] [(name, resource)] [(resource, BitVec.ofNat 32 n)] := by
  intro fr hzero
  have hname : fr.locals name = some 0 := hzero (name, resource) List.mem_cons_self
  refine ⟨{ fr with locals := Function.update fr.locals name (some (BitVec.ofNat 32 n)) }, ?_, rfl,
    fun m hm => ?_, fun x hx => ?_, ?_⟩
  · rw [runAll_singleton, Stmt.run, hop, Option.bind_eq_bind, Option.bind_some, Option.bind_eq_bind, hbits,
      Option.bind_some, Frame.assign, hname, Option.map_some]
  · exact Function.update_of_ne (fun heq => hm (by simp [heq])) _ _
  · obtain rfl := List.mem_singleton.mp hx
    dsimp only
    rw [Function.update_self]
    nofun
  · simp only [held, List.filterMap_cons, List.filterMap_nil, Function.update_self, Option.bind_some, if_neg hne]

end Writes

/-! ## Borrows of a type -/

section
variable {R : Resources} {ty : Ty}

theorem holdsBorrow_fields {types : List Ty} (hf : ty.fieldTypes = some types) :
    HoldsBorrow R ty ↔ ∃ t ∈ types, HoldsBorrow R t := by
  constructor
  · intro h
    cases h with
    | field hf' ht h =>
      rw [hf] at hf'
      cases hf'
      exact ⟨_, ht, h⟩
    | arm ha _ _ =>
      rw [Ty.arms_of_fields hf] at ha
      cases ha
    | _ => cases hf
  · rintro ⟨t, ht, h⟩
    exact .field hf ht h

theorem holdsBorrow_arms {arms : List (Option Ty)} (ha : ty.arms = some arms) :
    HoldsBorrow R ty ↔ ∃ t, some t ∈ arms ∧ HoldsBorrow R t := by
  constructor
  · intro h
    cases h with
    | field hf _ _ =>
      rw [Ty.arms_of_fields hf] at ha
      cases ha
    | arm ha' ht h =>
      rw [ha] at ha'
      cases ha'
      exact ⟨_, ht, h⟩
    | _ => cases ha
  · rintro ⟨t, ht, h⟩
    exact .arm ha ht h

/-- No other type holds one itself. -/
theorem not_holdsBorrow (hf : ty.fieldTypes = none) (ha : ty.arms = none)
    (h : ∀ {id t}, ty ≠ .type id t) (hl : ∀ {id t}, ty ≠ .list id t) (hn : ∀ {id t n}, ty ≠ .fixedLengthList id t n)
    (hm : ∀ {id k v}, ty ≠ .map id k v) (hh : ∀ {id r name}, ty ≠ .handle id (.borrow r) name) :
    ¬HoldsBorrow R ty := by
  intro hty
  cases hty with
  | handle _ => exact hh rfl
  | type _ => exact h rfl
  | list _ => exact hl rfl
  | fixedLengthList _ => exact hn rfl
  | key _ => exact hm rfl
  | value _ => exact hm rfl
  | field hf' _ _ => rw [hf] at hf'; cases hf'
  | arm ha' _ _ => rw [ha] at ha'; cases ha'

theorem borrowsOf_fields {types : List Ty} (hf : ty.fieldTypes = some types) (vs : List Val) :
    borrowsOf R ty (.record vs) = borrowsOfFields (types.map (borrowsOf R)) vs := by
  cases hf using Ty.fields_cases with
  | record id name fields =>
    rw [borrowsOf, List.map_map]
    rfl
  | tuple id types' =>
    rw [borrowsOf]

theorem borrowsOf_arms {arms : List (Option Ty)} (ha : ty.arms = some arms) (d : Nat) (v : Val) :
    borrowsOf R ty (.variant d (some v)) = borrowsOfArm (arms.map fun o => o.map (borrowsOf R)) d v := by
  cases ha using Ty.arms_cases with
  | variant id name cases =>
    rw [borrowsOf]
    congr 1
    exact Ty.map_cases ..
  | option id t =>
    rw [borrowsOf]
    rfl
  | result id ok err =>
    rw [borrowsOf.eq_def]
    cases ok <;> cases err <;> rfl

theorem borrowsOf_not_record {types : List Ty} {v : Val} (hf : ty.fieldTypes = some types)
    (hv : ¬∃ vs, v = .record vs) : borrowsOf R ty v = [] := by
  cases hf using Ty.fields_cases <;>
  · rw [borrowsOf.eq_def]
    split <;> first | rfl | exact absurd ⟨_, rfl⟩ hv | contradiction

theorem borrowsOf_not_payload {arms : List (Option Ty)} {v : Val} (ha : ty.arms = some arms)
    (hv : ¬∃ d v', v = .variant d (some v')) : borrowsOf R ty v = [] := by
  cases ha using Ty.arms_cases <;>
  · rw [borrowsOf.eq_def]
    split <;> first | rfl | exact absurd ⟨_, _, rfl⟩ hv | contradiction

theorem borrowsOf_none (d : Nat) (ha : ty.arms ≠ none) : borrowsOf R ty (.variant d none) = [] := by
  obtain ⟨arms, ha⟩ := Option.ne_none_iff_exists'.mp ha
  exact borrowsOf_not_payload ha nofun

/-- An arm without a payload holds none. -/
def containsInArm (R : Resources) : Option Ty → Except WitBindgen.Panic Bool
  | none => .ok false
  | some t => containsDroppableBorrow R t

theorem containsDroppableBorrow_fields {types : List Ty} (hf : ty.fieldTypes = some types) :
    containsDroppableBorrow R ty = anyOf (types.map (containsDroppableBorrow R)) := by
  cases hf using Ty.fields_cases with
  | record id name fields =>
    rw [containsDroppableBorrow, List.map_map]
    rfl
  | tuple id types' =>
    rw [containsDroppableBorrow]

theorem anyOf_cons_false (x : Except WitBindgen.Panic Bool) : anyOf [.ok false, x] = x := by
  rcases x with _ | (_ | _) <;> rfl

theorem containsDroppableBorrow_arms {arms : List (Option Ty)} (ha : ty.arms = some arms) :
    containsDroppableBorrow R ty = anyOf (arms.map (containsInArm R)) := by
  cases ha using Ty.arms_cases with
  | variant id name cases =>
    rw [containsDroppableBorrow]
    congr 1
    exact (Ty.elim_cases ..).trans (List.map_congr_left fun o _ => by cases o <;> rfl)
  | option id t =>
    rw [containsDroppableBorrow]
    exact (anyOf_cons_false _).symm
  | result id ok err =>
    rw [containsDroppableBorrow.eq_def]
    cases ok <;> cases err <;> rfl

theorem anyOf_spec {xs : List (Except WitBindgen.Panic Bool)} {b : Bool} (h : anyOf xs = .ok b) :
    (b = true → .ok true ∈ xs) ∧ (b = false → ∀ x ∈ xs, x = .ok false) := by
  induction xs with
  | nil =>
    cases h
    exact ⟨nofun, nofun⟩
  | cons x xs ih =>
    rcases x with e | (_ | _)
    · cases h
    · obtain ⟨htrue, hfalse⟩ := ih h
      exact ⟨fun hb => List.mem_cons_of_mem _ (htrue hb), fun hb => List.forall_mem_cons.mpr ⟨rfl, hfalse hb⟩⟩
    · cases h
      exact ⟨fun _ => List.mem_cons_self, nofun⟩

/-- Where the test does not panic, it is right. -/
theorem containsDroppableBorrow_spec (ty : Ty) : ∀ b, containsDroppableBorrow R ty = .ok b →
    (b = true ↔ HoldsBorrow R ty) := by
  induction ty using Ty.ind with
  | type id t ih =>
    intro b h
    rw [containsDroppableBorrow] at h
    exact (ih b h).trans ⟨.type, fun h => by cases h with | type h => exact h | field hf => cases hf | arm ha => cases ha⟩
  | list id t ih =>
    intro b h
    rw [containsDroppableBorrow] at h
    exact (ih b h).trans ⟨.list, fun h => by cases h with | list h => exact h | field hf => cases hf | arm ha => cases ha⟩
  | map id k v ihk ihv =>
    intro b h
    rw [containsDroppableBorrow] at h
    obtain ⟨htrue, hfalse⟩ := anyOf_spec h
    constructor
    · intro hb
      rcases List.mem_cons.mp (htrue hb) with heq | heq
      · exact .key ((ihk _ heq.symm).mp rfl)
      · exact .value ((ihv _ (List.mem_singleton.mp heq).symm).mp rfl)
    · intro hty
      rcases Bool.eq_false_or_eq_true b with hb | hb
      · exact hb
      · have hall := hfalse hb
        cases hty with
        | key hk => exact absurd ((ihk _ (hall _ List.mem_cons_self)).mpr hk) (by simp)
        | value hv =>
          exact absurd ((ihv _ (hall _ (List.mem_cons_of_mem _ List.mem_cons_self))).mpr hv) (by simp)
        | field hf => cases hf
        | arm ha => cases ha
  | fixedLengthList id t n ih =>
    intro b h
    rw [containsDroppableBorrow] at h
    cases h
  | fields ty types hf ih =>
    intro b h
    rw [containsDroppableBorrow_fields hf] at h
    obtain ⟨htrue, hfalse⟩ := anyOf_spec h
    rw [holdsBorrow_fields hf]
    constructor
    · intro hb
      obtain ⟨t, ht, heq⟩ := List.mem_map.mp (htrue hb)
      exact ⟨t, ht, (ih t ht _ heq).mp rfl⟩
    · rintro ⟨t, ht, hold⟩
      rcases Bool.eq_false_or_eq_true b with hb | hb
      · exact hb
      · exact absurd ((ih t ht _ (hfalse hb _ (List.mem_map_of_mem ht))).mpr hold) (by simp)
  | arms ty arms ha ih =>
    intro b h
    rw [containsDroppableBorrow_arms ha] at h
    obtain ⟨htrue, hfalse⟩ := anyOf_spec h
    rw [holdsBorrow_arms ha]
    constructor
    · intro hb
      obtain ⟨o, ho, heq⟩ := List.mem_map.mp (htrue hb)
      cases o with
      | none => cases heq
      | some t => exact ⟨t, ho, (ih t ho _ heq).mp rfl⟩
    · rintro ⟨t, ht, hold⟩
      rcases Bool.eq_false_or_eq_true b with hb | hb
      · exact hb
      · exact absurd ((ih t ht _ (hfalse hb _ (List.mem_map_of_mem ht))).mpr hold) (by simp)
  | handle id h name =>
    intro b hb
    cases h with
    | own r =>
      rw [containsDroppableBorrow.eq_def] at hb
      cases hb
      exact iff_of_false (by simp) (not_holdsBorrow rfl rfl (by simp) (by simp) (by simp) (by simp) (by simp))
    | borrow r =>
      rw [containsDroppableBorrow] at hb
      cases hb
      rw [decide_eq_true_iff]
      exact ⟨.handle, fun h => by cases h with | handle h => exact h | field hf => cases hf | arm ha => cases ha⟩
  | _ =>
    intro b hb
    rw [containsDroppableBorrow.eq_def] at hb
    cases hb
    exact iff_of_false (by simp) (not_holdsBorrow rfl rfl (by simp) (by simp) (by simp) (by simp) (by simp))

/-! ## Lifting a value -/

theorem lift_fields {types : List Ty} (hf : ty.fieldTypes = some types) (place : Place) :
    lift R ty place = liftFields (types.map (lift R)) (place.fields R types) := by
  cases hf using Ty.fields_cases with
  | record id name fields =>
    rw [lift, List.map_map]
    rfl
  | tuple id types' =>
    rw [lift]

theorem lift_arms {arms : List (Option Ty)} (ha : ty.arms = some arms) (place : Place) :
    ∃ name, lift R ty place = liftArms R name ty arms place (arms.map fun o => o.map fun t => (t, lift R t)) := by
  cases ha using Ty.arms_cases with
  | variant id name cases =>
    refine ⟨"variant", ?_⟩
    rw [lift]
    congr 1
    exact Ty.map_cases ..
  | option id t =>
    exact ⟨"option", by rw [lift]; rfl⟩
  | result id ok err =>
    refine ⟨"result", ?_⟩
    rw [lift.eq_def]
    cases ok <;> cases err <;> rfl

theorem gen_bind {α β : Type} {x : Gen α} {f : α → Gen β} {s s' : FunctionBindgen} {b : β}
    (h : (x >>= f) s = .ok (b, s')) : ∃ a s₁, x s = .ok (a, s₁) ∧ f a s₁ = .ok (b, s') := by
  change (x s >>= fun y => f y.1 y.2) = _ at h
  cases hx : x s with
  | error e =>
    rw [hx] at h
    cases h
  | ok y =>
    rw [hx] at h
    exact ⟨y.1, y.2, rfl, h⟩

theorem assertNoDroppableBorrows_spec {s s' : FunctionBindgen} {u : Unit}
    (h : assertNoDroppableBorrows R ty s = .ok (u, s')) : s' = s ∧ ¬HoldsBorrow R ty := by
  rw [assertNoDroppableBorrows] at h
  cases hc : containsDroppableBorrow R ty with
  | error e =>
    rw [hc] at h
    cases h
  | ok b =>
    rw [hc] at h
    cases b with
    | true => cases h
    | false =>
      cases h
      exact ⟨rfl, fun hty => nomatch (containsDroppableBorrow_spec ty false hc).mpr hty⟩

variable {α : Type} {f : α → Gen (List Stmt)} {Q : α → Prop}
  {P : α → List Stmt → List (String × TypeId) → Prop}

/-- Blocks one after the other, each lifted on its own. -/
theorem mapM_lifted {xs : List α} {s s' : FunctionBindgen} {blocks : List (List Stmt)}
    (hf : ∀ x ∈ xs, ∀ s stmts s', f x s = .ok (stmts, s') →
      ∃ new, Lifted (Q x) s s' stmts new ∧ P x stmts new)
    (h : xs.mapM f s = .ok (blocks, s')) :
    ∃ pieces : List (List Stmt × List (String × TypeId)), blocks = pieces.map (·.1) ∧
      Lifted (∃ x ∈ xs, Q x) s s' blocks.flatten (pieces.map (·.2)).flatten ∧
      List.Forall₂ (fun x piece => P x piece.1 piece.2) xs pieces := by
  induction xs generalizing s blocks with
  | nil =>
    cases h
    exact ⟨[], rfl, .nil (by simp), .nil⟩
  | cons x xs ih =>
    rw [List.mapM_cons] at h
    obtain ⟨stmts, s₁, hx, h⟩ := gen_bind h
    obtain ⟨blocks', s₂, hxs, h⟩ := gen_bind h
    cases h
    obtain ⟨new, hlifted, hp⟩ := hf x List.mem_cons_self s stmts s₁ hx
    obtain ⟨pieces, rfl, hrest, hps⟩ := ih (fun y hy => hf y (List.mem_cons_of_mem _ hy)) hxs
    refine ⟨(stmts, new) :: pieces, rfl, ?_, .cons hp hps⟩
    simp only [List.map_cons, List.flatten_cons]
    exact (hlifted.append hrest).congr (by simp)

end

section
variable {R : Resources} {p : Nat}

/-- Run on a value, the code of its type leaves the borrows that are in it. -/
def Leaves (R : Resources) (p : Nat) (x : Ty × Place) (stmts : List Stmt) (new : List (String × TypeId)) : Prop :=
  ∀ (A : Allocator (256 ^ p)) args v, At R p A args x v → (∀ b ∈ borrowsOf R x.1 v, b.2 ≠ 0) →
    Writes p args stmts new (borrowsOf R x.1 v)

/-- The borrow is the operand of `HandleLift`. -/
theorem word_at {A : Allocator (256 ^ p)} {args : Args} {id : TypeId} {handle : Handle} {name : String}
    {place : Place} {v : Val} (h : At R p A args (.handle id handle name, place) v) {s s' : FunctionBindgen}
    {op : Expr} (hop : place.word s = .ok (op, s')) :
    ∃ n word, v = .handle (BitVec.ofNat 32 n) ∧ op.eval p args = some word ∧ bitsOf .i32 [word] = some n := by
  obtain ⟨src, w, hsrc, hv⟩ := h
  cases place with
  | flat ops =>
    rw [Place.source, Option.map_eq_some_iff] at hsrc
    obtain ⟨ws, hws, rfl⟩ := hsrc
    cases ops with
    | nil => cases hop
    | cons e ops =>
      cases hop
      obtain _ | ⟨hword, hus⟩ := mapM_some_iff.mp hws
      rename_i word us
      rw [liftFrom, liftFlat, liftHandle] at hv
      obtain ⟨n, w₁, hn, hv⟩ := run_bind_eq_ok hv
      cases hv
      cases hus with
      | cons _ _ => cases hn
      | nil =>
        refine ⟨n, word, rfl, hword, ?_⟩
        cases hbits : bitsOf .i32 [word] with
        | none => rw [hbits] at hn; cases hn
        | some n' => rw [hbits] at hn; cases hn; rfl
  | memory addr offset =>
    cases hop
    rw [Place.source] at hsrc
    simp only [Option.bind_eq_bind, Option.bind_eq_some_iff, Option.some.injEq] at hsrc
    obtain ⟨word, hword, a, haddr, rfl⟩ := hsrc
    rw [liftFrom, load, loadHandle] at hv
    obtain ⟨n, w₁, hn, hv⟩ := run_bind_eq_ok hv
    cases hv
    refine ⟨n, ⟨.i32, n⟩, rfl, ?_, rfl⟩
    rw [Expr.eval, hword, Option.bind_eq_bind, Option.bind_some, Option.bind_eq_bind, haddr, Option.bind_some, hn]

/-- The fields, one after the other, leave the borrows of all of them. -/
theorem writes_fields {A : Allocator (256 ^ p)} {args : Args} {items : List (Ty × Place)} {vs : List Val}
    {pieces : List (List Stmt × List (String × TypeId))}
    (h : List.Forall₂ (fun x piece => Leaves R p x piece.1 piece.2) items pieces)
    (hvs : List.Forall₂ (At R p A args) items vs) (hnodup : ((pieces.map (·.2)).flatten.map (·.1)).Nodup)
    (hne : ∀ b ∈ borrowsOfFields ((items.map (·.1)).map (borrowsOf R)) vs, b.2 ≠ 0) :
    Writes p args (pieces.map (·.1)).flatten (pieces.map (·.2)).flatten
      (borrowsOfFields ((items.map (·.1)).map (borrowsOf R)) vs) := by
  induction h generalizing vs with
  | nil =>
    cases hvs
    exact .nil []
  | @cons x piece items pieces hx _ ih =>
    obtain _ | ⟨hv, hvs⟩ := hvs
    simp only [List.map_cons, borrowsOfFields, List.zip_cons_cons, List.flatMap_cons, List.flatten_cons] at *
    refine Writes.append hnodup (hx A args _ hv fun b hb => hne b (List.mem_append_left _ hb))
      (ih hvs ?_ fun b hb => hne b (List.mem_append_right _ hb))
    rw [List.map_append] at hnodup
    exact (List.nodup_append.mp hnodup).2.1

/-- One of several blocks. -/
theorem Writes.among {args : Args} {pieces : List (List Stmt × List (String × TypeId))} {d : Nat}
    {piece : List Stmt × List (String × TypeId)} {borrows : List (TypeId × BitVec 32)}
    (hd : pieces[d]? = some piece) (hnodup : ((pieces.map (·.2)).flatten.map (·.1)).Nodup)
    (h : Writes p args piece.1 piece.2 borrows) :
    Writes p args piece.1 (pieces.map (·.2)).flatten borrows := by
  induction pieces generalizing d with
  | nil =>
    rw [List.getElem?_nil] at hd
    cases hd
  | cons q pieces ih =>
    simp only [List.map_cons, List.flatten_cons] at hnodup ⊢
    cases d with
    | zero =>
      cases hd
      simpa using h.append hnodup (.nil _)
    | succ d =>
      rw [List.map_append] at hnodup
      have hrest := ih (by simpa using hd) (List.nodup_append.mp hnodup).2.1
      exact (Writes.nil q.2).append (by rwa [List.map_append]) hrest

theorem borrowsOfArm_nil {borrows : List (Option (Val → List (TypeId × BitVec 32)))} {v : Val} (d : Nat)
    (h : ∀ f, some f ∈ borrows → f v = []) : borrowsOfArm borrows d v = [] := by
  rw [borrowsOfArm]
  split
  · exact h _ (List.mem_of_getElem? ‹_›)
  · rfl

theorem borrowsOf_nil {ty : Ty} (h : ¬HoldsBorrow R ty) : ∀ v, borrowsOf R ty v = [] := by
  induction ty using Ty.ind with
  | type id t ih =>
    intro v
    rw [borrowsOf]
    exact ih (fun ht => h (.type ht)) v
  | list id t ih =>
    intro v
    rw [borrowsOf.eq_def]
    cases v with
    | list vs => exact List.flatMap_eq_nil_iff.mpr fun v _ => ih (fun ht => h (.list ht)) v
    | _ => rfl
  | fixedLengthList id t n ih =>
    intro v
    rw [borrowsOf.eq_def]
    cases v with
    | list vs => exact List.flatMap_eq_nil_iff.mpr fun v _ => ih (fun ht => h (.fixedLengthList ht)) v
    | _ => rfl
  | map id k v ihk ihv =>
    intro v
    rw [borrowsOf.eq_def]
    cases v with
    | map es =>
      refine List.flatMap_eq_nil_iff.mpr fun e _ => ?_
      rw [ihk (fun hk => h (.key hk)), ihv (fun hv => h (.value hv))]
      rfl
    | _ => rfl
  | fields ty types hf ih =>
    intro v
    rw [holdsBorrow_fields hf] at h
    by_cases hv : ∃ vs, v = .record vs
    · obtain ⟨vs, rfl⟩ := hv
      rw [borrowsOf_fields hf]
      refine List.flatMap_eq_nil_iff.mpr fun x hx => ?_
      obtain ⟨t, ht, heq⟩ := List.mem_map.mp (List.of_mem_zip hx).1
      rw [← heq]
      exact ih t ht (fun hold => h ⟨t, ht, hold⟩) _
    · exact borrowsOf_not_record hf hv
  | arms ty arms ha ih =>
    intro v
    rw [holdsBorrow_arms ha] at h
    by_cases hv : ∃ d v', v = .variant d (some v')
    · obtain ⟨d, v, rfl⟩ := hv
      rw [borrowsOf_arms ha]
      refine borrowsOfArm_nil d fun f hf => ?_
      obtain ⟨o, ho, heq⟩ := List.mem_map.mp hf
      obtain ⟨t, rfl, rfl⟩ := Option.map_eq_some_iff.mp heq
      exact ih t ho (fun hold => h ⟨t, ho, hold⟩) v
    · exact borrowsOf_not_payload ha hv
  | handle id hd name =>
    intro v
    rw [borrowsOf.eq_def]
    cases hd with
    | own r => rfl
    | borrow r =>
      cases v with
      | handle b => exact if_neg fun hdir => h (.handle hdir)
      | _ => rfl
  | _ =>
    intro v
    rw [borrowsOf.eq_def]

/-- Where there is no borrow there is nothing to lift. -/
theorem Leaves.nil {x : Ty × Place} (h : ¬HoldsBorrow R x.1) : Leaves R p x [] [] := by
  intro A args v _ _
  rw [borrowsOf_nil h]
  exact .nil []

/-- The code of the members of a record, or of the arguments. -/
theorem liftFields_lifted {types : List Ty} {places : List Place} (hlen : places.length = types.length)
    (ih : ∀ t ∈ types, ∀ place, Fits R (t, place) → ∀ s stmts s', lift R t place s = .ok (stmts, s') →
      ∃ new, Lifted (HoldsBorrow R t) s s' stmts new ∧ Leaves R p (t, place) stmts new)
    (hfits : ∀ x ∈ types.zip places, Fits R x) {s s' : FunctionBindgen} {stmts : List Stmt}
    (h : liftFields (types.map (lift R)) places s = .ok (stmts, s')) :
    ∃ new, Lifted (∃ t ∈ types, HoldsBorrow R t) s s' stmts new ∧
      ∀ (A : Allocator (256 ^ p)) args vs, List.Forall₂ (At R p A args) (types.zip places) vs →
        (∀ b ∈ borrowsOfFields (types.map (borrowsOf R)) vs, b.2 ≠ 0) →
          Writes p args stmts new (borrowsOfFields (types.map (borrowsOf R)) vs) := by
  have htypes : (types.zip places).map (·.1) = types := List.map_fst_zip hlen.ge
  rw [liftFields, List.zip_map_left] at h
  obtain ⟨blocks, s₁, hblocks, hlast⟩ := gen_bind h
  cases hlast
  rw [List.mapM_map] at hblocks
  obtain ⟨pieces, rfl, hlifted, hps⟩ := mapM_lifted (Q := fun x => HoldsBorrow R x.1)
    (P := fun x stmts new => Leaves R p x stmts new)
    (fun x hx s stmts s' hs => ih x.1 (List.of_mem_zip hx).1 x.2 (hfits x hx) s stmts s' hs) hblocks
  refine ⟨(pieces.map (·.2)).flatten, hlifted.congr ?_, fun A args vs hvs hne => ?_⟩
  · constructor
    · rintro ⟨x, hx, hold⟩
      exact ⟨x.1, (List.of_mem_zip hx).1, hold⟩
    · rintro ⟨t, ht, hold⟩
      rw [← htypes] at ht
      obtain ⟨x, hx, rfl⟩ := List.mem_map.mp ht
      exact ⟨x, hx, hold⟩
  · have hwrites := writes_fields hps hvs hlifted.nodup
    rw [htypes] at hwrites
    exact hwrites hne

/-- The arm of a case, in the blocks of `liftArms`. -/
def liftArm (R : Resources) (ty : Ty) (arms : List (Option Ty)) (place : Place) : Option Ty → Gen (List Stmt)
  | none => pure []
  | some t => do lift R t (← place.arm R ty arms t)

/-- The code of the cases of a type. -/
theorem liftArms_lifted (hW : R.W.Lawful p) {ty : Ty} {arms : List (Option Ty)} (ha : ty.arms = some arms)
    (ih : ∀ t, some t ∈ arms → ∀ place, Fits R (t, place) → ∀ s stmts s', lift R t place s = .ok (stmts, s') →
      ∃ new, Lifted (HoldsBorrow R t) s s' stmts new ∧ Leaves R p (t, place) stmts new)
    {place : Place} (hfits : Fits R (ty, place)) {name : String} {s s' : FunctionBindgen} {stmts : List Stmt}
    (h : liftArms R name ty arms place (arms.map fun o => o.map fun t => (t, lift R t)) s = .ok (stmts, s')) :
    ∃ new, Lifted (HoldsBorrow R ty) s s' stmts new ∧ Leaves R p (ty, place) stmts new := by
  rw [liftArms] at h
  obtain ⟨op, s₁, hop, hswitch⟩ := gen_bind h
  obtain rfl := tag_state hop
  obtain ⟨blocks, s₂, hblocks, htmp⟩ := gen_bind hswitch
  obtain ⟨_, s₃, hname, hlast⟩ := gen_bind htmp
  cases hname
  cases hlast
  rw [List.mapM_map] at hblocks
  have hstep : ∀ o ∈ arms, ∀ s stmts s', liftArm R ty arms place o s = .ok (stmts, s') → ∃ new,
      Lifted (∃ t, o = some t ∧ HoldsBorrow R t) s s' stmts new ∧
        ∀ (A : Allocator (256 ^ p)) args d payload, At R p A args (ty, place) (.variant d payload) →
          arms[d]? = some o → (∀ b ∈ borrowsOf R ty (.variant d payload), b.2 ≠ 0) →
            Writes p args stmts new (borrowsOf R ty (.variant d payload)) := by
    intro o ho s stmts s' hs
    cases o with
    | none =>
      cases hs
      refine ⟨[], .nil (by simp), fun A args d payload hat harm _ => ?_⟩
      rw [arm_none ha hat harm, borrowsOf_none d (by rw [ha]; nofun)]
      exact .nil []
    | some t =>
      obtain ⟨place', s₂, hplace, hpayload⟩ := gen_bind hs
      obtain rfl := arm_state hplace
      obtain ⟨new, hlifted, hleaves⟩ := ih t ho place' (arm_fits hW ha ho hfits hplace) _ _ _ hpayload
      refine ⟨new, hlifted.congr (by simp), fun A args d payload hat harm hne => ?_⟩
      obtain ⟨x, rfl, hx⟩ := arm_at hW ha hfits hat harm hplace
      have hborrows : borrowsOf R ty (.variant d (some x)) = borrowsOf R t x := by
        rw [borrowsOf_arms ha, borrowsOfArm, List.getElem?_map, harm]
        rfl
      rw [hborrows] at hne ⊢
      exact hleaves A args x hx hne
  have hblocks' : arms.mapM (liftArm R ty arms place) s₁ = .ok (blocks, s₂) := by
    rw [← hblocks]
    refine congrFun (congrArg (fun f => List.mapM f arms) (funext fun o => ?_)) _
    cases o <;> rfl
  obtain ⟨pieces, rfl, hlifted, hps⟩ := mapM_lifted hstep hblocks'
  refine ⟨(pieces.map (·.2)).flatten, ((hlifted.switch op).tmp name).congr ?_, fun A args v hat hne => ?_⟩
  · rw [holdsBorrow_arms ha]
    constructor
    · rintro ⟨o, ho, t, rfl, hold⟩
      exact ⟨t, ho, hold⟩
    · rintro ⟨t, ht, hold⟩
      exact ⟨some t, ht, t, rfl, hold⟩
  · obtain ⟨d, payload, word, rfl, hd, heval, hbits⟩ := tag_at ha hat hop
    have hd' : d < pieces.length := hps.length_eq ▸ hd
    have hpiece := hps.get hd hd'
    have hwrites := hpiece A args d payload hat (List.getElem?_eq_getElem hd) hne
    exact .switch heval hbits (by rw [List.getElem?_map, List.getElem?_eq_getElem hd']; rfl)
      (.among (List.getElem?_eq_getElem hd') hlifted.nodup hwrites)

/-- The code of a value of any type. -/
theorem lift_lifted (hW : R.W.Lawful p) (ty : Ty) : ∀ place, Fits R (ty, place) → ∀ s stmts s',
    lift R ty place s = .ok (stmts, s') →
      ∃ new, Lifted (HoldsBorrow R ty) s s' stmts new ∧ Leaves R p (ty, place) stmts new := by
  induction ty using Ty.ind with
  | type id t ih =>
    intro place hfits s stmts s' h
    rw [lift] at h
    have hfits' : Fits R (t, place) := fun ops hops => by
      rw [hfits ops hops]
      exact congrArg List.length (hW.flat_type id t)
    obtain ⟨new, hlifted, hleaves⟩ := ih place hfits' s stmts s' h
    refine ⟨new, hlifted.congr ⟨.type, fun hty => ?_⟩, fun A args v hat hne => ?_⟩
    · cases hty with
      | type ht => exact ht
      | field hf => cases hf
      | arm ha => cases ha
    · rw [borrowsOf] at hne ⊢
      refine hleaves A args v ?_ hne
      obtain ⟨src, w, hsrc, hv⟩ := hat
      refine ⟨src, w, hsrc, ?_⟩
      cases src with
      | words ws => rwa [liftFrom, liftFlat] at hv
      | memory a => rwa [liftFrom, load] at hv
  | list id t ih =>
    intro place hfits s stmts s' h
    rw [lift] at h
    cases hcanon : R.isListCanonical t with
    | true =>
      rw [hcanon, if_pos rfl] at h
      obtain ⟨_, s₁, hassert, hlast⟩ := gen_bind h
      cases hlast
      obtain ⟨rfl, hnone⟩ := assertNoDroppableBorrows_spec hassert
      exact ⟨[], .nil hnone, .nil hnone⟩
    | false =>
      -- the body of the list is thrown away; it has no locals, as the assertion holds
      rw [hcanon, if_neg Bool.false_ne_true] at h
      obtain ⟨_, s₁, hbody, hrest⟩ := gen_bind h
      obtain ⟨_, s₂, hassert, hlast⟩ := gen_bind hrest
      cases hlast
      obtain ⟨rfl, hnone⟩ := assertNoDroppableBorrows_spec hassert
      obtain ⟨new, hlifted, -⟩ := ih (.memory .base default) (by intro _ h; cases h) _ _ _ hbody
      have hnone' : ¬HoldsBorrow R t := fun ht => hnone (.list ht)
      exact ⟨[], (hlifted.discard hnone').congr (iff_of_false hnone' hnone), .nil hnone⟩
  | map id k v ihk ihv =>
    intro place hfits s stmts s' h
    rw [lift] at h
    cases hget : (R.W.fieldOffsets [k, v])[1]? with
    | none =>
      rw [hget] at h
      cases h
    | some f =>
      rw [hget] at h
      obtain ⟨offset, s₀, hoffset, hkey⟩ := gen_bind h
      cases hoffset
      obtain ⟨_, s₁, hbody, hvalue⟩ := gen_bind hkey
      obtain ⟨_, s₂, hbody', hrest⟩ := gen_bind hvalue
      obtain ⟨_, s₃, hassert, hlast⟩ := gen_bind hrest
      cases hlast
      obtain ⟨rfl, hnone⟩ := assertNoDroppableBorrows_spec hassert
      obtain ⟨newk, hk, -⟩ := ihk (.memory .base default) (by intro _ h; cases h) _ _ _ hbody
      obtain ⟨newv, hv, -⟩ := ihv (.memory .base f.1) (by intro _ h; cases h) _ _ _ hbody'
      have hnonek : ¬HoldsBorrow R k := fun hk => hnone (.key hk)
      have hnonev : ¬HoldsBorrow R v := fun hv => hnone (.value hv)
      exact ⟨[], ((hk.discard hnonek).append (hv.discard hnonev)).congr
        (iff_of_false (not_or.mpr ⟨hnonek, hnonev⟩) hnone), .nil hnone⟩
  | fixedLengthList id t n ih =>
    intro place hfits s stmts s' h
    rw [lift] at h
    cases h
  | fields ty types hf ih =>
    intro place hfits s stmts s' h
    rw [lift_fields hf] at h
    have hfits' : ∀ x ∈ types.zip (place.fields R types), Fits R x := fields_fit fun ops hops => by
      rw [hfits ops hops, hW.flat_fields ty types hf, List.length_flatten, List.map_map]
      rfl
    obtain ⟨new, hlifted, hwrites⟩ := liftFields_lifted (fields_length hW types place) ih hfits' h
    refine ⟨new, hlifted.congr (holdsBorrow_fields hf).symm, fun A args v hat hne => ?_⟩
    obtain ⟨vs, rfl, hvs⟩ := liftFrom_fields hf hat
    rw [borrowsOf_fields hf] at hne ⊢
    exact hwrites A args vs hvs hne
  | arms ty arms ha ih =>
    intro place hfits s stmts s' h
    obtain ⟨name, heq⟩ := lift_arms (R := R) ha place
    rw [heq] at h
    exact liftArms_lifted hW ha ih hfits h
  | handle id hd name =>
    intro place hfits s stmts s' h
    rw [lift] at h
    obtain ⟨op, s₁, hop, hhandle⟩ := gen_bind h
    obtain rfl := word_state hop
    have hnot : ∀ r, hd = .own r ∨ hd = .borrow r ∧ R.direction (R.dealias r) ≠ .import_ →
        ¬HoldsBorrow R (.handle id hd name) := by
      intro r hr hty
      cases hty with
      | handle hdir =>
        rcases hr with hr | ⟨hr, hne⟩
        · cases hr
        · cases hr
          exact hne hdir
      | field hf => cases hf
      | arm ha => cases ha
    cases hd with
    | own r =>
      cases hhandle
      exact ⟨[], .nil (hnot r (Or.inl rfl)), .nil (hnot r (Or.inl rfl))⟩
    | borrow r =>
      rw [handleLift] at hhandle
      cases hdir : R.direction (R.dealias r) with
      | export_ =>
        rw [hdir] at hhandle
        cases hhandle
        have hnone := hnot r (Or.inr ⟨rfl, by rw [hdir]; simp⟩)
        exact ⟨[], .nil hnone, .nil hnone⟩
      | import_ =>
        rw [hdir] at hhandle
        cases hhandle
        refine ⟨[((s₁.locals.tmpName "borrow").1, R.dealias r)], ?_, fun A args v hat hne => ?_⟩
        · exact ⟨rfl, rfl, fun x hx => List.mem_cons_of_mem _ hx,
            fun x hx => by rw [List.mem_singleton.mp hx]; exact tmpName_fresh _ _,
            fun x hx => by rw [List.mem_singleton.mp hx]; exact List.mem_cons_self,
            List.nodup_singleton _, fun m => by simp [usesAll, Stmt.uses],
            fun m hm => (by cases List.mem_singleton.mp hm), iff_of_true (by simp) (.handle hdir)⟩
        · obtain ⟨n, word, rfl, heval, hbits⟩ := word_at hat hop
          rw [borrowsOf, if_pos hdir] at hne ⊢
          exact .assign heval hbits (hne _ List.mem_cons_self)
  | errorContext =>
    intro place hfits s stmts s' h
    rw [lift] at h
    cases h
  | resource id =>
    intro place hfits s stmts s' h
    rw [lift] at h
    cases h
  | unknown id =>
    intro place hfits s stmts s' h
    rw [lift] at h
    cases h
  | _ =>
    intro place hfits s stmts s' h
    rw [lift] at h
    cases h
    exact ⟨[], .nil (not_holdsBorrow rfl rfl (by simp) (by simp) (by simp) (by simp) (by simp)),
      .nil (not_holdsBorrow rfl rfl (by simp) (by simp) (by simp) (by simp) (by simp))⟩

/-! ## The body of an export -/

variable {f : Export}

theorem paramOffsets_length (offset : ArchitectureSize) (types : List Ty) :
    (paramOffsets R offset types).length = types.length := by
  induction types generalizing offset with
  | nil => rfl
  | cons t types ih => rw [paramOffsets, List.length_cons, ih, List.length_cons]

theorem places_length (hW : R.W.Lawful p) : (f.places R).length = f.func.paramTypes.length := by
  rw [Export.places]
  split
  · rw [List.length_map, paramOffsets_length]
  · exact fields_length hW _ _

theorem places_fit (hflat : f.Flattens R) : ∀ x ∈ f.func.paramTypes.zip (f.places R), Fits R x := by
  rw [Export.places]
  split
  · rintro ⟨t, q⟩ hx ops rfl
    obtain ⟨o, -, heq⟩ := List.mem_map.mp (List.of_mem_zip hx).2
    cases heq
  · rename_i hdirect
    refine fields_fit fun ops hops => ?_
    cases hops
    rw [List.length_map, List.length_range]
    exact hflat (by simpa using hdirect)

/-- The arguments of an export, and what their code leaves. -/
theorem params_lifted (hW : R.W.Lawful p) (hflat : f.Flattens R) {s s' : FunctionBindgen} {src : List Stmt}
    (h : liftFields (f.func.paramTypes.map (lift R)) (f.places R) s = .ok (src, s')) :
    ∃ new, Lifted (∃ t ∈ f.func.paramTypes, HoldsBorrow R t) s s' src new ∧
      ∀ (A : Allocator (256 ^ p)) args vs, f.Lifts R p A args vs →
        (∀ b ∈ borrowsOfFields (f.func.paramTypes.map (borrowsOf R)) vs, b.2 ≠ 0) →
          Writes p args src new (borrowsOfFields (f.func.paramTypes.map (borrowsOf R)) vs) := by
  obtain ⟨new, hlifted, hwrites⟩ :=
    liftFields_lifted (places_length hW) (fun t _ => lift_lifted hW t) (places_fit hflat) h
  exact ⟨new, hlifted, fun A args vs hlifts => hwrites A args vs hlifts.2⟩

/-- The declarations leave every local at zero. -/
theorem run_declares (args : Args) (names : List String) (fr : Frame) :
    runAll p args (names.map .declare) fr =
      some { fr with locals := fun name => if name ∈ names then some 0 else fr.locals name } := by
  induction names generalizing fr with
  | nil => rfl
  | cons name names ih =>
    rw [List.map_cons, runAll, Stmt.run, Option.bind_eq_bind, Option.bind_some, ih]
    congr 2
    funext m
    by_cases hm : m = name
    · subst hm
      rw [if_pos List.mem_cons_self]
      split
      · rfl
      · exact Function.update_self ..
    · by_cases hmem : m ∈ names
      · rw [if_pos hmem, if_pos (List.mem_cons_of_mem _ hmem)]
      · rw [if_neg hmem, if_neg (by simp [hm, hmem])]
        exact Function.update_of_ne hm _ _

theorem usesAll_declares (names : List String) : usesAll (names.map .declare) = [] := by
  induction names with
  | nil => rfl
  | cons name names ih =>
    rw [List.map_cons, usesAll, ih]
    rfl

theorem usesAll_drops (new : List (String × TypeId)) :
    usesAll (new.map fun b => Stmt.drop b.1 b.2) = new.map (·.1) := by
  induction new with
  | nil => rfl
  | cons x new ih =>
    rw [List.map_cons, usesAll, ih]
    rfl

/-- The drops give back what the locals hold. -/
theorem run_drops (args : Args) (new : List (String × TypeId)) (fr : Frame)
    (hlive : ∀ x ∈ new, fr.locals x.1 ≠ none) :
    runAll p args (new.map fun b => Stmt.drop b.1 b.2) fr =
      some { fr with effects := fr.effects ++ (held fr.locals new).map fun b => Effect.dropped b.1 b.2 } := by
  induction new generalizing fr with
  | nil =>
    simp only [held, List.filterMap_nil, List.map_nil, List.append_nil]
    rfl
  | cons x new ih =>
    obtain ⟨h, hh⟩ := Option.ne_none_iff_exists'.mp (hlive x List.mem_cons_self)
    rw [List.map_cons, runAll, Stmt.run, Frame.drop, hh, Option.map_some, Option.bind_eq_bind, Option.bind_some]
    have hrest := fun y hy => hlive y (List.mem_cons_of_mem _ hy)
    by_cases hzero : h = 0
    · rw [if_pos hzero, ih fr hrest]
      simp only [held, List.filterMap_cons, hh, Option.bind_some, if_pos hzero]
    · rw [if_neg hzero, ih { fr with effects := fr.effects ++ [.dropped x.2 h] } hrest]
      simp only [held, List.filterMap_cons, hh, Option.bind_some, if_neg hzero, List.map_cons, List.append_assoc,
        List.singleton_append]

theorem exportBody_ok {body : List Stmt} (h : exportBody R f = .ok body) : ∃ src s,
    liftFields (f.func.paramTypes.map (lift R)) (f.places R) ⟨argNames (f.sig R).params.length Ns.empty, [], []⟩ =
        .ok (src, s) ∧
      body = if f.async_ then src ++ [Stmt.call, .return_]
        else s.borrowDecls.map .declare ++ src ++ [Stmt.call] ++ s.borrows.map (fun b => Stmt.drop b.1 b.2) ++ [Stmt.return_] := by
  rw [exportBody] at h
  dsimp only at h
  cases hsrc : liftFields (f.func.paramTypes.map (lift R)) (f.places R)
      ⟨argNames (f.sig R).params.length Ns.empty, [], []⟩ with
  | error e =>
    rw [hsrc] at h
    cases h
  | ok x =>
    rw [hsrc] at h
    refine ⟨x.1, x.2, rfl, ?_⟩
    split
    · rename_i hasync
      change (if f.async_ = true then _ else _) = _ at h
      rw [if_pos hasync] at h
      cases h
      rfl
    · rename_i hsync
      change (if f.async_ = true then _ else _) = _ at h
      rw [if_neg hsync] at h
      cases h
      rfl

/-- A synchronous export has its `Return`. -/
theorem autodrops_sync (hW : R.W.Lawful p) (hflat : f.Flattens R) (hsync : f.async_ = false) {body : List Stmt}
    (hbody : exportBody R f = .ok body) (A : Allocator (256 ^ p)) : Autodrops R f p A body := by
  obtain ⟨src, s, hsrc, rfl⟩ := exportBody_ok hbody
  rw [hsync, if_neg Bool.false_ne_true]
  obtain ⟨new, hlifted, hwrites⟩ := params_lifted hW hflat hsrc
  have hdecls : s.borrowDecls = new.map (·.1) := hlifted.decls
  have hborrows : s.borrows = new := hlifted.borrows
  rw [hdecls, hborrows]
  constructor
  · intro name hname
    rw [usesAll_append, usesAll_append, usesAll_append, usesAll_append, usesAll_declares, usesAll_drops] at hname
    have hmem : name ∈ new.map (·.1) := by
      simpa [usesAll, Stmt.uses, hlifted.uses] using hname
    simp only [List.mem_append, List.mem_map, Stmt.declare.injEq, exists_eq_right]
    exact Or.inl (Or.inl (Or.inl (Or.inl (List.mem_map.mp hmem))))
  · intro args vs hlifts borrows hne
    obtain ⟨fr, hrun, heff, -, hlive, hheld⟩ := hwrites A args vs hlifts hne
      ⟨fun name => if name ∈ new.map (·.1) then some 0 else none, []⟩ fun x hx => if_pos (List.mem_map_of_mem hx)
    refine ⟨{ fr with effects := [Effect.called] ++ borrows.map (fun b => Effect.dropped b.1 b.2) ++ [Effect.returned] }, ?_, rfl⟩
    have hdrops := run_drops (p := p) args new { fr with effects := [Effect.called] } hlive
    rw [hheld] at hdrops
    rw [runAll_append, runAll_append, runAll_append, runAll_append, run_declares, Option.bind_some, hrun,
      Option.bind_some, runAll_singleton, Stmt.run, Option.bind_some, heff, List.nil_append, hdrops, Option.bind_some,
      runAll_singleton, Stmt.run]

/-- Without borrows an asynchronous export has nothing to drop; with one, its local is
not declared. -/
theorem autodrops_async_iff (hW : R.W.Lawful p) (hflat : f.Flattens R) (hasync : f.async_ = true)
    {body : List Stmt} (hbody : exportBody R f = .ok body) (A : Allocator (256 ^ p)) :
    Autodrops R f p A body ↔ ∀ t ∈ f.func.paramTypes, ¬HoldsBorrow R t := by
  obtain ⟨src, s, hsrc, rfl⟩ := exportBody_ok hbody
  rw [hasync, if_pos rfl]
  obtain ⟨new, hlifted, hwrites⟩ := params_lifted hW hflat hsrc
  constructor
  · intro h t ht hold
    have hnew := hlifted.some.mpr ⟨t, ht, hold⟩
    obtain ⟨x, hx⟩ := List.exists_mem_of_ne_nil new hnew
    have huse : x.1 ∈ usesAll src := (hlifted.uses x.1).mpr (List.mem_map_of_mem hx)
    have hdecl := h.declared x.1 (by rw [usesAll_append]; exact List.mem_append_left _ huse)
    rcases List.mem_append.mp hdecl with hmem | hmem
    · exact hlifted.plain _ hmem
    · simp at hmem
  · intro hnone
    have hnil : new = [] := by
      by_contra hne
      obtain ⟨t, ht, hold⟩ := hlifted.some.mp hne
      exact hnone t ht hold
    subst hnil
    constructor
    · intro name hname
      rw [usesAll_append] at hname
      have hmem : name ∈ usesAll src := by simpa [usesAll, Stmt.uses] using hname
      exact absurd ((hlifted.uses name).mp hmem) List.not_mem_nil
    · intro args vs hlifts borrows hne
      obtain ⟨fr, hrun, heff, -, -, hheld⟩ := hwrites A args vs hlifts hne ⟨fun _ => none, []⟩ nofun
      have hnone : borrows = [] := hheld.symm
      refine ⟨{ fr with effects := [Effect.called, .returned] }, ?_, by rw [hnone]; rfl⟩
      rw [runAll_append, hrun, Option.bind_some, runAll, Stmt.run, Option.bind_eq_bind, Option.bind_some,
        runAll_singleton, Stmt.run, heff]
      rfl

/-- The borrows of the arguments are given back by exactly the exports that are
synchronous, or have none. -/
theorem autodrops_iff (hW : R.W.Lawful p) (hflat : f.Flattens R) {body : List Stmt}
    (hbody : exportBody R f = .ok body) (A : Allocator (256 ^ p)) :
    Autodrops R f p A body ↔ f.async_ = false ∨ ∀ t ∈ f.func.paramTypes, ¬HoldsBorrow R t := by
  cases hasync : f.async_ with
  | false => exact iff_of_true (autodrops_sync hW hflat hasync hbody A) (Or.inl rfl)
  | true =>
    rw [autodrops_async_iff hW hflat hasync hbody A]
    exact ⟨Or.inr, fun h => h.resolve_left nofun⟩

end

/-! ## A function that borrows an imported resource -/

/-- Every resource is imported. -/
def imported : Resources := ⟨WitParser.canonical, id, fun _ => .import_, fun _ => false⟩

/-- `f: func(r: borrow<r>)` -/
def borrowing (async_ : Bool) : Export :=
  ⟨⟨"f", if async_ then .asyncFreestanding else .freestanding, [("r", .handle 1 (.borrow 0) "r")], none⟩, async_⟩

def borrowingBody (async_ : Bool) : List Stmt :=
  if async_ then [.assign "borrow" (.arg 0), .call, .return_]
  else [.declare "borrow", .assign "borrow" (.arg 0), .call, .drop "borrow" 0, .return_]

theorem borrowing_sig (async_ : Bool) :
    (borrowing async_).sig imported = ⟨[.i32], if async_ then [.i32] else [], false, false⟩ := by
  have hflat : (((borrowing async_).func).paramTypes.map Ty.pushFlat).flatten = [.i32] := by
    rw [borrowing, Function.paramTypes, List.map_singleton, List.map_singleton, Ty.pushFlat]
    rfl
  have hsig : ∀ variant func, imported.W.wasmSignature variant func = WitBindgen.wasmSignature variant func :=
    fun _ _ => rfl
  rw [Export.sig, hsig, WitBindgen.wasmSignature, flatParams.eq_def, hflat]
  cases async_ <;> rfl

theorem borrowing_flattens (async_ : Bool) : (borrowing async_).Flattens imported := by
  intro _
  rw [borrowing_sig]
  change 1 = ((Ty.handle 1 (.borrow 0) "r").pushFlat).length
  rw [Ty.pushFlat]
  rfl

theorem borrowing_places (async_ : Bool) : (borrowing async_).places imported = [.flat [.arg 0]] := by
  rw [Export.places, borrowing_sig]
  change [Place.flat (List.take (((Ty.handle 1 (.borrow 0) "r").pushFlat).length) [.arg 0])] = _
  rw [Ty.pushFlat]
  rfl

theorem exportBody_borrowing (async_ : Bool) :
    exportBody imported (borrowing async_) = .ok (borrowingBody async_) := by
  rw [exportBody, borrowing_places, borrowing_sig]
  simp only [liftFields, borrowing, Function.paramTypes, List.map_cons,
    List.map_nil, List.zip_cons_cons, List.zip_nil_right, List.mapM_cons, List.mapM_nil, lift]
  cases async_ <;> rfl

theorem borrow_autodropped : Autodrops imported (borrowing false) 4 (bump _) (borrowingBody false) :=
  (autodrops_iff canonical_lawful (borrowing_flattens false) (exportBody_borrowing false) _).mpr (Or.inl rfl)

/-- An asynchronous export assigns a local that it does not declare, and keeps the
borrow. -/
theorem borrow_kept : exportBody imported (borrowing true) = .ok (borrowingBody true) ∧
    ¬Autodrops imported (borrowing true) 4 (bump _) (borrowingBody true) :=
  ⟨exportBody_borrowing true, fun h => (autodrops_async_iff canonical_lawful (borrowing_flattens true) rfl
    (exportBody_borrowing true) _).mp h _ List.mem_cons_self (.handle rfl)⟩

end WitBindgen.C.Autodrop
