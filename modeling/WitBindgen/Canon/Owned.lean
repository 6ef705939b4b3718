import WitBindgen.Canon.Lowered

/-!
# What a value gives back, and what it keeps

Deallocation gives a buffer back unless a fixed-length list stands above it. A
type from which no such list can be reached has no values that keep anything;
any other type has one. Of what a value gives back only the types that its core
values stand for decide: some value gives something back exactly if one of them
is a string, a list or a map, or a handle that the deallocation is about.
-/

namespace WitBindgen

open Heap

/-! ## Parts of a type -/

/-- The types reached from a type, itself first. A future's or stream's payload
is not reached. -/
def Ty.parts : Ty → List Ty
  | .type id t => .type id t :: t.parts
  | .list id t => .list id t :: t.parts
  | .map id k t => .map id k t :: (k.parts ++ t.parts)
  | .fixedLengthList id t n => .fixedLengthList id t n :: t.parts
  | .record id name fields => .record id name fields ::
      (fields.map fun f => f.2.parts).flatten
  | .tuple id types => .tuple id types :: (types.map fun t => t.parts).flatten
  | .variant id name cases => .variant id name cases ::
      (cases.map fun c => match _h : c.2 with
        | none => []
        | some t => t.parts).flatten
  | .option id t => .option id t :: t.parts
  | .result id ok err => .result id ok err ::
      ((match ok with | none => [] | some t => t.parts) ++
       (match err with | none => [] | some t => t.parts))
  | t => [t]
termination_by t => sizeOf t
decreasing_by
  all_goals first
    | decreasing_tactic
    | with_reducible exact Ty.sizeOf_field ‹_›
    | with_reducible exact Ty.sizeOf_tuple ‹_›
    | with_reducible exact Ty.sizeOf_arm ‹_› ‹_›

/-- The types a value's core values stand for, one after the other: all cases of
a variant count. -/
def Ty.flatLeaves : Ty → List Ty
  | .type _ t => t.flatLeaves
  | .record _ _ fields => (fields.map fun f => f.2.flatLeaves).flatten
  | .tuple _ types => (types.map fun t => t.flatLeaves).flatten
  | .variant _ _ cases => (cases.map fun c => match _h : c.2 with
      | none => []
      | some t => t.flatLeaves).flatten
  | .option _ t => t.flatLeaves
  | .result _ ok err =>
    (match ok with | none => [] | some t => t.flatLeaves) ++
    (match err with | none => [] | some t => t.flatLeaves)
  | t => [t]
termination_by t => sizeOf t
decreasing_by
  all_goals first
    | decreasing_tactic
    | with_reducible exact Ty.sizeOf_field ‹_›
    | with_reducible exact Ty.sizeOf_tuple ‹_›
    | with_reducible exact Ty.sizeOf_arm ‹_› ‹_›

section
variable {ty : Ty}

theorem Ty.parts_fields {types : List Ty} (h : ty.fieldTypes = some types) :
    ty.parts = ty :: types.flatMap Ty.parts := by
  cases h using Ty.fields_cases with
  | record id name fields =>
    rw [Ty.parts, List.flatMap, List.map_map]
    rfl
  | tuple id types' =>
    rw [Ty.parts]
    rfl

theorem Ty.parts_arms {arms : List (Option Ty)} (h : ty.arms = some arms) :
    ty.parts = ty :: arms.flatMap fun o => o.elim [] Ty.parts := by
  cases h using Ty.arms_cases with
  | variant id name cases =>
    rw [Ty.parts, List.flatMap]
    congr 2
    exact Ty.elim_cases ..
  | option id t =>
    rw [Ty.parts]
    simp
  | result id ok err =>
    cases ok <;> cases err <;> · rw [Ty.parts]; simp

theorem Ty.flatLeaves_fields {types : List Ty} (h : ty.fieldTypes = some types) :
    ty.flatLeaves = types.flatMap Ty.flatLeaves := by
  cases h using Ty.fields_cases with
  | record id name fields =>
    rw [Ty.flatLeaves, List.flatMap, List.map_map]
    rfl
  | tuple id types' =>
    rw [Ty.flatLeaves]
    rfl

theorem Ty.flatLeaves_arms {arms : List (Option Ty)} (h : ty.arms = some arms) :
    ty.flatLeaves = arms.flatMap fun o => o.elim [] Ty.flatLeaves := by
  cases h using Ty.arms_cases with
  | variant id name cases =>
    rw [Ty.flatLeaves, List.flatMap]
    congr 1
    exact Ty.elim_cases ..
  | option id t =>
    rw [Ty.flatLeaves]
    simp
  | result id ok err =>
    cases ok <;> cases err <;> · rw [Ty.flatLeaves]; simp

theorem Ty.self_mem_parts (ty : Ty) : ty ∈ ty.parts := by
  rw [Ty.parts.eq_def]
  cases ty <;> exact List.mem_cons_self

/-- What a value's core values stand for are parts of its type. -/
theorem Ty.flatLeaves_subset_parts (ty : Ty) : ty.flatLeaves ⊆ ty.parts := by
  induction ty using Ty.ind with
  | type id t ih =>
    rw [Ty.flatLeaves, Ty.parts]
    exact fun l hl => List.mem_cons_of_mem _ (ih hl)
  | fields ty types hf ih =>
    rw [Ty.flatLeaves_fields hf, Ty.parts_fields hf]
    intro l hl
    obtain ⟨t, ht, hl⟩ := List.mem_flatMap.mp hl
    exact List.mem_cons_of_mem _ (List.mem_flatMap.mpr ⟨t, ht, ih t ht hl⟩)
  | arms ty arms ha ih =>
    rw [Ty.flatLeaves_arms ha, Ty.parts_arms ha]
    intro l hl
    obtain ⟨o, ho, hl⟩ := List.mem_flatMap.mp hl
    cases o with
    | none => cases hl
    | some t =>
      exact List.mem_cons_of_mem _ (List.mem_flatMap.mpr ⟨some t, ho, ih t ho hl⟩)
  | _ =>
    intro l hl
    rw [Ty.flatLeaves.eq_def] at hl
    obtain rfl := List.mem_singleton.mp hl
    exact Ty.self_mem_parts _

end

def Ty.isFixedLengthList : Ty → Bool
  | .fixedLengthList _ _ _ => true
  | _ => false

def Ty.isErrorContext : Ty → Bool
  | .errorContext => true
  | _ => false

/-- Types whose values own a buffer. -/
def Ty.isBuffer : Ty → Bool
  | .string | .list _ _ | .map _ _ _ => true
  | _ => false

/-- A buffer can be reached from the type. -/
def Ty.allocates (ty : Ty) : Bool := ty.parts.any Ty.isBuffer

/-- A fixed-length list of what owns buffers can be reached from the type. -/
def Ty.keepsBack (ty : Ty) : Bool :=
  ty.parts.any fun
    | .fixedLengthList _ t _ => t.allocates
    | _ => false

/-- What a deallocation gives back of a leaf. -/
def Ty.givesLeaf (what : Deallocate) : Ty → Bool
  | .string | .list _ _ | .map _ _ _ => true
  | .handle _ (.own _) _ | .future _ _ | .stream _ _ => what.handles
  | _ => false

/-- Some value of the type gives something back. -/
def Ty.gives (what : Deallocate) (ty : Ty) : Bool := ty.flatLeaves.any (Ty.givesLeaf what)

/-! ## Values of every type -/

theorem Prim.exists_holds (q : Prim) : ∃ v, q.Holds v := by
  cases q with
  | bool => exact ⟨.bool false, trivial⟩
  | u8 => exact ⟨.u8 0, trivial⟩
  | s8 => exact ⟨.s8 0, trivial⟩
  | u16 => exact ⟨.u16 0, trivial⟩
  | s16 => exact ⟨.s16 0, trivial⟩
  | u32 => exact ⟨.u32 0, trivial⟩
  | s32 => exact ⟨.s32 0, trivial⟩
  | u64 => exact ⟨.u64 0, trivial⟩
  | s64 => exact ⟨.s64 0, trivial⟩
  | f32 => exact ⟨.f32 0, trivial⟩
  | f64 => exact ⟨.f64 0, trivial⟩
  | char => exact ⟨.char 'a', trivial⟩

/-- Values for the members of a record. -/
theorem exists_members {types : List Ty} (h : ∀ t ∈ types, ∃ v, Fits v t) :
    ∃ vs, vs.length = types.length ∧ ∀ y ∈ types.zip vs, Fits y.2 y.1 := by
  induction types with
  | nil => exact ⟨[], rfl, by simp⟩
  | cons t types ih =>
    obtain ⟨v, hv⟩ := h t List.mem_cons_self
    obtain ⟨vs, hlen, hvs⟩ := ih fun u hu => h u (List.mem_cons_of_mem _ hu)
    refine ⟨v :: vs, by simp [hlen], fun y hy => ?_⟩
    rw [List.zip_cons_cons] at hy
    rcases List.mem_cons.mp hy with rfl | hy
    · exact hv
    · exact hvs y hy

/-- The same, with a given value for one of them. -/
theorem exists_members_with {types : List Ty} (h : ∀ t ∈ types, ∃ v, Fits v t) {t : Ty}
    (ht : t ∈ types) {x : Val} (hx : Fits x t) :
    ∃ vs, vs.length = types.length ∧ (∀ y ∈ types.zip vs, Fits y.2 y.1) ∧
      (t, x) ∈ types.zip vs := by
  induction types with
  | nil => cases ht
  | cons u types ih =>
    have htail : ∀ u ∈ types, ∃ v, Fits v u := fun u hu => h u (List.mem_cons_of_mem _ hu)
    rcases List.mem_cons.mp ht with rfl | ht
    · obtain ⟨vs, hlen, hvs⟩ := exists_members htail
      refine ⟨x :: vs, by simp [hlen], fun y hy => ?_, List.mem_cons_self⟩
      rw [List.zip_cons_cons] at hy
      rcases List.mem_cons.mp hy with rfl | hy
      · exact hx
      · exact hvs y hy
    · obtain ⟨v, hv⟩ := h u List.mem_cons_self
      obtain ⟨vs, hlen, hvs, hmem⟩ := ih htail ht
      refine ⟨v :: vs, by simp [hlen], fun y hy => ?_, List.mem_cons_of_mem _ hmem⟩
      rw [List.zip_cons_cons] at hy
      rcases List.mem_cons.mp hy with rfl | hy
      · exact hv
      · exact hvs y hy

/-- A value of a type with cases, around a payload. -/
theorem exists_arm_with {ty : Ty} {arms : List (Option Ty)} (ha : ty.arms = some arms) {t : Ty}
    (ht : some t ∈ arms) {x : Val} (hx : Fits x t) :
    ∃ i v, Fits v ty ∧ v.asVariant arms = some (i, some (t, x)) := by
  obtain ⟨i, hi, hget⟩ := List.getElem_of_mem ht
  have harm : arms[i]? = some (some t) := by rw [List.getElem?_eq_getElem hi, hget]
  exact ⟨i, .variant i (some x), .armSome ha harm hx, by simp [Val.asVariant, harm]⟩

/-- Every valid type has a value. -/
theorem exists_fits {ty : Ty} (h : ty.Valid) : ∃ v, Fits v ty := by
  induction h with
  | prim q =>
    obtain ⟨v, hv⟩ := q.exists_holds
    exact ⟨v, .prim hv⟩
  | string => exact ⟨.string "", .string⟩
  | errorContext => exact ⟨.handle 0, .errorContext⟩
  | type _ ih => exact ih.imp fun _ hv => .type hv
  | list _ _ => exact ⟨.list [], .list (by simp)⟩
  | map _ _ _ _ => exact ⟨.map [], .map (by simp) (by simp)⟩
  | @fixedLengthList id t n _ _ ih =>
    obtain ⟨v, hv⟩ := ih
    refine ⟨.list (List.replicate n v), .fixedLengthList List.length_replicate fun u hu => ?_⟩
    rw [(List.mem_replicate.mp hu).2]
    exact hv
  | fields hf _ ih =>
    obtain ⟨vs, hlen, hvs⟩ := exists_members ih
    exact ⟨.record vs, .fields hf hlen hvs⟩
  | @flags id name names _ =>
    exact ⟨.flags (List.replicate names.length false), .flags List.length_replicate⟩
  | @arms ty arms ha hne _ _ ih =>
    obtain ⟨o, ho⟩ := List.exists_mem_of_ne_nil arms hne
    cases o with
    | none =>
      obtain ⟨i, hi, hget⟩ := List.getElem_of_mem ho
      exact ⟨.variant i none, .armNone ha (by rw [List.getElem?_eq_getElem hi, hget])⟩
    | some t =>
      obtain ⟨x, hx⟩ := ih t ho
      obtain ⟨i, v, hv, -⟩ := exists_arm_with ha ho hx
      exact ⟨v, hv⟩
  | @enum id name cases hne _ =>
    exact ⟨.enum 0, .enum (List.length_pos_iff.mpr hne)⟩
  | handle => exact ⟨.handle 0, .handle⟩
  | future => exact ⟨.handle 0, .future⟩
  | stream => exact ⟨.handle 0, .stream⟩

section
variable {α : Type} {g : Ty → Val → List α} {P : α → Prop} {ty : Ty}

/-- What is collected of a member is collected of the record. -/
theorem exists_collectFields {types : List Ty} (hf : ty.fieldTypes = some types)
    (h : ∀ t ∈ types, ∃ v, Fits v t) {t : Ty} (ht : t ∈ types)
    (hx : ∃ x, Fits x t ∧ ∃ r ∈ g t x, P r) :
    ∃ v, Fits v ty ∧ ∃ r ∈ collectFields (types.map g) v, P r := by
  obtain ⟨x, hx, r, hr, hP⟩ := hx
  obtain ⟨vs, hlen, hvs, hmem⟩ := exists_members_with h ht hx
  refine ⟨.record vs, .fields hf hlen hvs, r, ?_, hP⟩
  rw [collectFields_record hlen]
  exact List.mem_flatten.mpr ⟨_, List.mem_map_of_mem hmem, hr⟩

/-- What is collected of a payload is collected of the case. -/
theorem exists_collectArm {arms : List (Option Ty)} (ha : ty.arms = some arms) {t : Ty}
    (ht : some t ∈ arms) (hx : ∃ x, Fits x t ∧ ∃ r ∈ g t x, P r) :
    ∃ v, Fits v ty ∧ ∃ r ∈ collectArm (arms.map fun o => o.map g) v, P r := by
  obtain ⟨x, hx, r, hr, hP⟩ := hx
  obtain ⟨i, v, hv, hcase⟩ := exists_arm_with ha ht hx
  refine ⟨v, hv, r, ?_, hP⟩
  rw [collectArm, Val.asVariant_map, hcase]
  exact hr

end

/-! ## Buffers that are kept -/

section
variable {T : Target} {ty : Ty}

theorem Ty.allocates_fields {types : List Ty} (hf : ty.fieldTypes = some types) :
    ty.allocates = types.any Ty.allocates := by
  rw [Ty.allocates, Ty.parts_fields hf, List.any_cons, List.any_flatMap]
  cases ty with
  | record => rfl
  | tuple => rfl
  | _ => cases hf

theorem Ty.allocates_arms {arms : List (Option Ty)} (ha : ty.arms = some arms) :
    ty.allocates = arms.any fun o => o.any Ty.allocates := by
  rw [Ty.allocates, Ty.parts_arms ha, List.any_cons, List.any_flatMap]
  have hself : ty.isBuffer = false := by
    cases ty with
    | variant => rfl
    | option => rfl
    | result => rfl
    | _ => cases ha
  rw [hself, Bool.false_or]
  congr 1
  funext o
  cases o <;> rfl

theorem Ty.keepsBack_fields {types : List Ty} (hf : ty.fieldTypes = some types) :
    ty.keepsBack = types.any Ty.keepsBack := by
  rw [Ty.keepsBack, Ty.parts_fields hf, List.any_cons, List.any_flatMap]
  cases ty with
  | record => rfl
  | tuple => rfl
  | _ => cases hf

theorem Ty.keepsBack_arms {arms : List (Option Ty)} (ha : ty.arms = some arms) :
    ty.keepsBack = arms.any fun o => o.any Ty.keepsBack := by
  rw [Ty.keepsBack, Ty.parts_arms ha, List.any_cons, List.any_flatMap]
  cases ty with
  | variant =>
    rw [Bool.false_or]
    congr 1
    funext o
    cases o <;> rfl
  | option =>
    rw [Bool.false_or]
    congr 1
    funext o
    cases o <;> rfl
  | result =>
    rw [Bool.false_or]
    congr 1
    funext o
    cases o <;> rfl
  | _ => cases ha

theorem collectFields_mem {α : Type} {types : List Ty} {g : Ty → Val → List α} {v : Val} {r : α}
    (h : r ∈ collectFields (types.map g) v) : ∃ t ∈ types, ∃ x, r ∈ g t x := by
  unfold collectFields at h
  rw [List.length_map] at h
  cases hv : v.asRecord types.length with
  | none => rw [hv] at h; cases h
  | some vs =>
    rw [hv] at h
    obtain ⟨⟨f, x⟩, hx, hr⟩ := List.mem_flatMap.mp h
    obtain ⟨t, ht, rfl⟩ := List.mem_map.mp (List.of_mem_zip hx).1
    exact ⟨t, ht, x, hr⟩

theorem collectArm_mem {α : Type} {arms : List (Option Ty)} {g : Ty → Val → List α} {v : Val}
    {r : α} (h : r ∈ collectArm (arms.map fun o => o.map g) v) :
    ∃ t, some t ∈ arms ∧ ∃ x, r ∈ g t x := by
  rw [collectArm, Val.asVariant_map] at h
  cases v with
  | variant i payload =>
    simp only [Val.asVariant] at h
    cases harm : arms[i]? with
    | none => simp [harm] at h
    | some o =>
      cases o with
      | none => cases payload <;> simp [harm] at h
      | some t =>
        cases payload with
        | none => simp [harm] at h
        | some x => exact ⟨t, List.mem_of_getElem? harm, x, by simpa [harm] using h⟩
  | _ => simp [Val.asVariant] at h

/-- A type from which no buffer is reached makes no request. -/
theorem requests_eq_nil (h : ty.allocates = false) (v : Val) : requests T ty v = [] := by
  refine List.eq_nil_iff_forall_not_mem.mpr fun r hr => ?_
  induction ty using Ty.ind generalizing v r with
  | string => simp [Ty.allocates, Ty.parts, Ty.isBuffer] at h
  | type id t ih =>
    rw [Ty.allocates, Ty.parts, List.any_cons] at h
    rw [requests] at hr
    exact ih (by simpa [Ty.allocates, Ty.isBuffer] using h) v r hr
  | list id t ih => simp [Ty.allocates, Ty.parts, Ty.isBuffer] at h
  | map id k t ihk iht => simp [Ty.allocates, Ty.parts, Ty.isBuffer] at h
  | fixedLengthList id t n ih =>
    rw [Ty.allocates, Ty.parts, List.any_cons] at h
    rw [requests] at hr
    cases hv : v.asFixed n with
    | none => rw [hv] at hr; cases hr
    | some vs =>
      rw [hv] at hr
      obtain ⟨r', hr', -⟩ := List.mem_map.mp hr
      obtain ⟨rs, hrs, hr''⟩ := List.mem_flatten.mp hr'
      obtain ⟨u, -, rfl⟩ := List.mem_map.mp hrs
      exact ih (by simpa [Ty.allocates, Ty.isBuffer] using h) u r' hr''
  | fields ty types hf ih =>
    rw [Ty.allocates_fields hf] at h
    rw [requests_fields hf] at hr
    obtain ⟨t, ht, x, hx⟩ := collectFields_mem hr
    exact ih t ht (by simpa using List.any_eq_false.mp h t ht) x r hx
  | arms ty arms ha ih =>
    rw [Ty.allocates_arms ha] at h
    rw [requests_arms ha] at hr
    obtain ⟨t, ht, x, hx⟩ := collectArm_mem hr
    exact ih t ht (by simpa using List.any_eq_false.mp h (some t) ht) x r hx
  | _ => simp [requests] at hr

/-- Nothing is kept back where no fixed-length list stands above a buffer. -/
theorem requests_released (h : ty.keepsBack = false) (v : Val) :
    ∀ r ∈ requests T ty v, r.released = true := by
  intro r hr
  induction ty using Ty.ind generalizing v r with
  | string =>
    rw [requests] at hr
    cases hv : v.asString with
    | none => rw [hv] at hr; cases hr
    | some s =>
      rw [hv] at hr
      obtain rfl := List.mem_singleton.mp hr
      rfl
  | type id t ih =>
    rw [Ty.keepsBack, Ty.parts, List.any_cons] at h
    rw [requests] at hr
    exact ih (by simpa [Ty.keepsBack] using h) v r hr
  | list id t ih =>
    rw [Ty.keepsBack, Ty.parts, List.any_cons] at h
    rw [requests] at hr
    cases hv : v.asList with
    | none => rw [hv] at hr; cases hr
    | some vs =>
      rw [hv] at hr
      rcases List.mem_cons.mp hr with rfl | hr
      · rfl
      · obtain ⟨rs, hrs, hr⟩ := List.mem_flatten.mp hr
        obtain ⟨u, -, rfl⟩ := List.mem_map.mp hrs
        exact ih (by simpa [Ty.keepsBack] using h) u r hr
  | map id k t ihk iht =>
    rw [Ty.keepsBack, Ty.parts, List.any_cons, List.any_append] at h
    have hkt : k.keepsBack = false ∧ t.keepsBack = false := by simpa [Ty.keepsBack] using h
    rw [requests] at hr
    cases hv : v.asMap with
    | none => rw [hv] at hr; cases hr
    | some es =>
      rw [hv] at hr
      rcases List.mem_cons.mp hr with rfl | hr
      · rfl
      · obtain ⟨rs, hrs, hr⟩ := List.mem_flatten.mp hr
        obtain ⟨e, -, rfl⟩ := List.mem_map.mp hrs
        rcases List.mem_append.mp hr with hr | hr
        · exact ihk hkt.1 e.1 r hr
        · exact iht hkt.2 e.2 r hr
  | fixedLengthList id t n ih =>
    rw [Ty.keepsBack, Ty.parts, List.any_cons, Bool.or_eq_false_iff] at h
    rw [requests] at hr
    cases hv : v.asFixed n with
    | none => rw [hv] at hr; cases hr
    | some vs =>
      rw [hv] at hr
      obtain ⟨r', hr', -⟩ := List.mem_map.mp hr
      obtain ⟨rs, hrs, hr''⟩ := List.mem_flatten.mp hr'
      obtain ⟨u, -, rfl⟩ := List.mem_map.mp hrs
      rw [requests_eq_nil h.1] at hr''
      cases hr''
  | fields ty types hf ih =>
    rw [Ty.keepsBack_fields hf] at h
    rw [requests_fields hf] at hr
    obtain ⟨t, ht, x, hx⟩ := collectFields_mem hr
    exact ih t ht (by simpa using List.any_eq_false.mp h t ht) x r hx
  | arms ty arms ha ih =>
    rw [Ty.keepsBack_arms ha] at h
    rw [requests_arms ha] at hr
    obtain ⟨t, ht, x, hx⟩ := collectArm_mem hr
    exact ih t ht (by simpa using List.any_eq_false.mp h (some t) ht) x r hx
  | _ => simp [requests] at hr

/-- A fixed-length list keeps the buffers of its elements. -/
theorem kept_of_fixedLengthList {id : TypeId} {t : Ty} {n : Nat} (hn : 0 < n)
    (hx : ∃ x, Fits x t ∧ ∃ r, r ∈ requests T t x) :
    ∃ v, Fits v (.fixedLengthList id t n) ∧
      ∃ r ∈ requests T (.fixedLengthList id t n) v, r.released = false := by
  obtain ⟨x, hx, r, hr⟩ := hx
  refine ⟨.list (List.replicate n x), .fixedLengthList List.length_replicate fun u hu => ?_,
    r.keep, ?_, rfl⟩
  · rw [(List.mem_replicate.mp hu).2]
    exact hx
  · rw [requests, Val.asFixed, if_pos List.length_replicate]
    refine List.mem_map_of_mem (List.mem_flatten.mpr ⟨_, List.mem_map_of_mem ?_, hr⟩)
    exact List.mem_replicate.mpr ⟨Nat.ne_of_gt hn, rfl⟩

/-- A buffer that is reached is requested by some value. -/
theorem exists_request (hv : ty.Valid) (h : ty.allocates = true) :
    ∃ v, Fits v ty ∧ ∃ r, r ∈ requests T ty v := by
  induction ty using Ty.ind with
  | string => exact ⟨.string "", .string, _, by rw [requests]; exact List.mem_singleton_self _⟩
  | type id t ih =>
    rw [Ty.allocates, Ty.parts, List.any_cons] at h
    obtain ⟨v, hfit, r, hr⟩ := ih hv.of_type (by simpa [Ty.allocates, Ty.isBuffer] using h)
    exact ⟨v, .type hfit, r, by rw [requests]; exact hr⟩
  | list id t ih =>
    exact ⟨.list [], .list (by simp), _, by rw [requests]; exact List.mem_cons_self⟩
  | map id k t ihk iht =>
    exact ⟨.map [], .map (by simp) (by simp), _, by rw [requests]; exact List.mem_cons_self⟩
  | fixedLengthList id t n ih =>
    rw [Ty.allocates, Ty.parts, List.any_cons] at h
    obtain ⟨hn, ht⟩ := hv.of_fixedLengthList
    have hkept : ∃ v, Fits v (.fixedLengthList id t n) ∧
        ∃ r ∈ requests T (.fixedLengthList id t n) v, r.released = false :=
      kept_of_fixedLengthList hn (ih ht (by simpa [Ty.allocates, Ty.isBuffer] using h))
    obtain ⟨v, hfit, r, hr, -⟩ := hkept
    exact ⟨v, hfit, r, hr⟩
  | fields ty types hf ih =>
    rw [Ty.allocates_fields hf] at h
    obtain ⟨t, ht, hyes⟩ := List.any_eq_true.mp h
    obtain ⟨x, hx, r, hr⟩ := ih t ht (hv.of_fields hf t ht) hyes
    obtain ⟨v, hfit, r, hr, -⟩ := exists_collectFields (P := fun _ => True) hf
      (fun u hu => exists_fits (hv.of_fields hf u hu)) ht ⟨x, hx, r, hr, trivial⟩
    exact ⟨v, hfit, r, by rw [requests_fields hf]; exact hr⟩
  | arms ty arms ha ih =>
    rw [Ty.allocates_arms ha] at h
    obtain ⟨o, ho, hyes⟩ := List.any_eq_true.mp h
    cases o with
    | none => cases hyes
    | some t =>
      obtain ⟨x, hx, r, hr⟩ := ih t ho ((hv.of_arms ha).2 t ho) hyes
      obtain ⟨v, hfit, r, hr, -⟩ := exists_collectArm (P := fun _ => True) ha ho
        ⟨x, hx, r, hr, trivial⟩
      exact ⟨v, hfit, r, by rw [requests_arms ha]; exact hr⟩
  | _ => simp [Ty.allocates, Ty.parts, Ty.isBuffer] at h

/-- And what is kept back, some value keeps. -/
theorem exists_kept (hv : ty.Valid) (h : ty.keepsBack = true) :
    ∃ v, Fits v ty ∧ ∃ r ∈ requests T ty v, r.released = false := by
  induction ty using Ty.ind with
  | type id t ih =>
    rw [Ty.keepsBack, Ty.parts, List.any_cons] at h
    obtain ⟨v, hfit, r, hr⟩ := ih hv.of_type (by simpa [Ty.keepsBack] using h)
    exact ⟨v, .type hfit, r, by rw [requests]; exact hr⟩
  | list id t ih =>
    rw [Ty.keepsBack, Ty.parts, List.any_cons] at h
    obtain ⟨v, hfit, r, hr, hkept⟩ := ih hv.of_list (by simpa [Ty.keepsBack] using h)
    refine ⟨.list [v], .list fun u hu => ?_, r, ?_, hkept⟩
    · obtain rfl := List.mem_singleton.mp hu
      exact hfit
    · rw [requests]
      exact List.mem_cons_of_mem _ (List.mem_flatten.mpr
        ⟨_, List.mem_map_of_mem (List.mem_singleton_self v), hr⟩)
  | map id k t ihk iht =>
    rw [Ty.keepsBack, Ty.parts, List.any_cons, List.any_append] at h
    obtain ⟨hk, ht⟩ := hv.of_map
    have hkt : k.keepsBack = true ∨ t.keepsBack = true := by simpa [Ty.keepsBack] using h
    obtain ⟨x, y, hx, hy, r, hr, hkept⟩ : ∃ x y, Fits x k ∧ Fits y t ∧
        ∃ r ∈ requests T k x ++ requests T t y, r.released = false := by
      rcases hkt with hyes | hyes
      · obtain ⟨x, hx, r, hr, hkept⟩ := ihk hk hyes
        obtain ⟨y, hy⟩ := exists_fits ht
        exact ⟨x, y, hx, hy, r, List.mem_append_left _ hr, hkept⟩
      · obtain ⟨y, hy, r, hr, hkept⟩ := iht ht hyes
        obtain ⟨x, hx⟩ := exists_fits hk
        exact ⟨x, y, hx, hy, r, List.mem_append_right _ hr, hkept⟩
    refine ⟨.map [(x, y)], .map (fun e he => ?_) (fun e he => ?_), r, ?_, hkept⟩
    · obtain rfl := List.mem_singleton.mp he
      exact hx
    · obtain rfl := List.mem_singleton.mp he
      exact hy
    · rw [requests]
      exact List.mem_cons_of_mem _ (List.mem_flatten.mpr
        ⟨_, List.mem_map_of_mem (List.mem_singleton_self (x, y)), hr⟩)
  | fixedLengthList id t n ih =>
    rw [Ty.keepsBack, Ty.parts, List.any_cons, Bool.or_eq_true] at h
    obtain ⟨hn, ht⟩ := hv.of_fixedLengthList
    rcases h with h | h
    · exact kept_of_fixedLengthList hn (exists_request ht h)
    · obtain ⟨x, hx, r, hr, -⟩ := ih ht h
      exact kept_of_fixedLengthList hn ⟨x, hx, r, hr⟩
  | fields ty types hf ih =>
    rw [Ty.keepsBack_fields hf] at h
    obtain ⟨t, ht, hyes⟩ := List.any_eq_true.mp h
    obtain ⟨v, hfit, hr⟩ := exists_collectFields hf
      (fun u hu => exists_fits (hv.of_fields hf u hu)) ht (ih t ht (hv.of_fields hf t ht) hyes)
    exact ⟨v, hfit, by rw [requests_fields hf]; exact hr⟩
  | arms ty arms ha ih =>
    rw [Ty.keepsBack_arms ha] at h
    obtain ⟨o, ho, hyes⟩ := List.any_eq_true.mp h
    cases o with
    | none => cases hyes
    | some t =>
      obtain ⟨v, hfit, hr⟩ := exists_collectArm ha ho (ih t ho ((hv.of_arms ha).2 t ho) hyes)
      exact ⟨v, hfit, by rw [requests_arms ha]; exact hr⟩
  | _ => simp [Ty.keepsBack, Ty.parts] at h

end

/-! ## What is given back -/

section
variable {T : Target} {what : Deallocate} {ty : Ty}

/-- The deallocation `what` gives something of the value back: a buffer or a handle. -/
def Given (T : Target) (what : Deallocate) (ty : Ty) (v : Val) : Prop :=
  (∃ r ∈ requests T ty v, r.released = true) ∨ ∃ e, e ∈ drops what ty v

theorem Ty.gives_fields {types : List Ty} (hf : ty.fieldTypes = some types) :
    ty.gives what = types.any (Ty.gives what) := by
  rw [Ty.gives, Ty.flatLeaves_fields hf, List.any_flatMap]
  rfl

theorem Ty.gives_arms {arms : List (Option Ty)} (ha : ty.arms = some arms) :
    ty.gives what = arms.any fun o => o.any (Ty.gives what) := by
  rw [Ty.gives, Ty.flatLeaves_arms ha, List.any_flatMap]
  congr 1
  funext o
  cases o <;> rfl

theorem Ty.gives_leaf (h : ty.flatLeaves = [ty]) : ty.gives what = ty.givesLeaf what := by
  rw [Ty.gives, h, List.any_cons, List.any_nil, Bool.or_false]

theorem Given.of_fields {types : List Ty} (hf : ty.fieldTypes = some types)
    (h : ∀ t ∈ types, ∃ v, Fits v t) {t : Ty} (ht : t ∈ types)
    (hx : ∃ x, Fits x t ∧ Given T what t x) : ∃ v, Fits v ty ∧ Given T what ty v := by
  obtain ⟨x, hx, hgiven⟩ := hx
  rcases hgiven with hgiven | ⟨e, he⟩
  · obtain ⟨v, hv, hr⟩ := exists_collectFields hf h ht ⟨x, hx, hgiven⟩
    exact ⟨v, hv, Or.inl (by rw [requests_fields hf]; exact hr)⟩
  · obtain ⟨v, hv, e, he, -⟩ := exists_collectFields (P := fun _ => True) hf h ht
      ⟨x, hx, e, he, trivial⟩
    exact ⟨v, hv, Or.inr ⟨e, by rw [drops_fields hf]; exact he⟩⟩

theorem Given.of_arms {arms : List (Option Ty)} (ha : ty.arms = some arms) {t : Ty}
    (ht : some t ∈ arms) (hx : ∃ x, Fits x t ∧ Given T what t x) :
    ∃ v, Fits v ty ∧ Given T what ty v := by
  obtain ⟨x, hx, hgiven⟩ := hx
  rcases hgiven with hgiven | ⟨e, he⟩
  · obtain ⟨v, hv, hr⟩ := exists_collectArm ha ht ⟨x, hx, hgiven⟩
    exact ⟨v, hv, Or.inl (by rw [requests_arms ha]; exact hr)⟩
  · obtain ⟨v, hv, e, he, -⟩ := exists_collectArm (P := fun _ => True) ha ht
      ⟨x, hx, e, he, trivial⟩
    exact ⟨v, hv, Or.inr ⟨e, by rw [drops_arms ha]; exact he⟩⟩

theorem dropOf_handle {h : BitVec 32} (hyes : what.handles = true) :
    dropOf what ty (.handle h) = [.dropHandle ty h] := by
  cases what with
  | lists => cases hyes
  | listsAndOwn => rfl

/-- A type that gives something back has a value that does. -/
theorem exists_given (hv : ty.Valid) (h : ty.gives what = true) :
    ∃ v, Fits v ty ∧ Given T what ty v := by
  induction ty using Ty.ind with
  | string =>
    exact ⟨.string "", .string, Or.inl ⟨_, by rw [requests]; exact List.mem_singleton_self _, rfl⟩⟩
  | type id t ih =>
    rw [Ty.gives, Ty.flatLeaves] at h
    obtain ⟨v, hfit, hgiven⟩ := ih hv.of_type h
    exact ⟨v, .type hfit, by rwa [Given, requests, drops]⟩
  | list id t ih =>
    exact ⟨.list [], .list (by simp), Or.inl ⟨_, by rw [requests]; exact List.mem_cons_self, rfl⟩⟩
  | map id k t ihk iht =>
    exact ⟨.map [], .map (by simp) (by simp),
      Or.inl ⟨_, by rw [requests]; exact List.mem_cons_self, rfl⟩⟩
  | fields ty types hf ih =>
    rw [Ty.gives_fields hf] at h
    obtain ⟨t, ht, hyes⟩ := List.any_eq_true.mp h
    exact Given.of_fields hf (fun u hu => exists_fits (hv.of_fields hf u hu)) ht
      (ih t ht (hv.of_fields hf t ht) hyes)
  | arms ty arms ha ih =>
    rw [Ty.gives_arms ha] at h
    obtain ⟨o, ho, hyes⟩ := List.any_eq_true.mp h
    cases o with
    | none => cases hyes
    | some t => exact Given.of_arms ha ho (ih t ho ((hv.of_arms ha).2 t ho) hyes)
  | handle id hd name =>
    rw [Ty.gives_leaf (by rw [Ty.flatLeaves.eq_def])] at h
    cases hd with
    | own r =>
      refine ⟨.handle 0, .handle, Or.inr ⟨.dropHandle (.handle id (.own r) name) 0, ?_⟩⟩
      rw [drops, dropOf_handle h]
      exact List.mem_singleton_self _
    | borrow r => cases h
  | future id t =>
    rw [Ty.gives_leaf (by rw [Ty.flatLeaves.eq_def])] at h
    refine ⟨.handle 0, .future, Or.inr ⟨.dropHandle (.future id t) 0, ?_⟩⟩
    rw [drops, dropOf_handle h]
    exact List.mem_singleton_self _
  | stream id t =>
    rw [Ty.gives_leaf (by rw [Ty.flatLeaves.eq_def])] at h
    refine ⟨.handle 0, .stream, Or.inr ⟨.dropHandle (.stream id t) 0, ?_⟩⟩
    rw [drops, dropOf_handle h]
    exact List.mem_singleton_self _
  | _ => rw [Ty.gives_leaf (by rw [Ty.flatLeaves.eq_def])] at h; cases h

theorem not_gives_handle {ty : Ty} {v : Val} (hno : what.handles = false) :
    dropOf what ty v = [] := by
  cases what with
  | lists => rfl
  | listsAndOwn => cases hno

/-- A type that gives nothing back has no value that does. -/
theorem not_given (h : ty.gives what = false) (v : Val) : ¬ Given T what ty v := by
  induction ty using Ty.ind generalizing v with
  | string => simp [Ty.gives, Ty.flatLeaves, Ty.givesLeaf] at h
  | type id t ih =>
    rw [Ty.gives, Ty.flatLeaves] at h
    rw [Given, requests, drops]
    exact ih h v
  | list id t ih => simp [Ty.gives, Ty.flatLeaves, Ty.givesLeaf] at h
  | map id k t ihk iht => simp [Ty.gives, Ty.flatLeaves, Ty.givesLeaf] at h
  | fixedLengthList id t n ih =>
    rintro (⟨r, hr, hrel⟩ | ⟨e, he⟩)
    · rw [requests] at hr
      cases hv : v.asFixed n with
      | none => rw [hv] at hr; cases hr
      | some vs =>
        rw [hv] at hr
        obtain ⟨r', -, rfl⟩ := List.mem_map.mp hr
        cases hrel
    · rw [drops] at he <;> first | cases he | (intros; contradiction)
  | fields ty types hf ih =>
    rw [Ty.gives_fields hf] at h
    rintro (⟨r, hr, hrel⟩ | ⟨e, he⟩)
    · rw [requests_fields hf] at hr
      obtain ⟨t, ht, x, hx⟩ := collectFields_mem hr
      exact ih t ht (by simpa using List.any_eq_false.mp h t ht) x (Or.inl ⟨r, hx, hrel⟩)
    · rw [drops_fields hf] at he
      obtain ⟨t, ht, x, hx⟩ := collectFields_mem he
      exact ih t ht (by simpa using List.any_eq_false.mp h t ht) x (Or.inr ⟨e, hx⟩)
  | arms ty arms ha ih =>
    rw [Ty.gives_arms ha] at h
    rintro (⟨r, hr, hrel⟩ | ⟨e, he⟩)
    · rw [requests_arms ha] at hr
      obtain ⟨t, ht, x, hx⟩ := collectArm_mem hr
      exact ih t ht (by simpa using List.any_eq_false.mp h (some t) ht) x (Or.inl ⟨r, hx, hrel⟩)
    · rw [drops_arms ha] at he
      obtain ⟨t, ht, x, hx⟩ := collectArm_mem he
      exact ih t ht (by simpa using List.any_eq_false.mp h (some t) ht) x (Or.inr ⟨e, hx⟩)
  | handle id hd name =>
    rw [Ty.gives_leaf (by rw [Ty.flatLeaves.eq_def])] at h
    rintro (⟨r, hr, -⟩ | ⟨e, he⟩)
    · simp [requests] at hr
    · cases hd with
      | own r => rw [drops, not_gives_handle h] at he; cases he
      | borrow r => simp [drops] at he
  | future id t =>
    rw [Ty.gives_leaf (by rw [Ty.flatLeaves.eq_def])] at h
    rintro (⟨r, hr, -⟩ | ⟨e, he⟩)
    · simp [requests] at hr
    · rw [drops, not_gives_handle h] at he; cases he
  | stream id t =>
    rw [Ty.gives_leaf (by rw [Ty.flatLeaves.eq_def])] at h
    rintro (⟨r, hr, -⟩ | ⟨e, he⟩)
    · simp [requests] at hr
    · rw [drops, not_gives_handle h] at he; cases he
  | _ =>
    rintro (⟨r, hr, -⟩ | ⟨e, he⟩)
    · simp [requests] at hr
    · simp [drops] at he

/-- A deallocation of lists drops no handle. -/
theorem drops_lists (v : Val) : drops .lists ty v = [] := by
  refine List.eq_nil_iff_forall_not_mem.mpr fun e he => ?_
  induction ty using Ty.ind generalizing v e with
  | type id t ih =>
    rw [drops] at he
    exact ih v e he
  | list id t ih =>
    rw [drops] at he
    cases hv : v.asList with
    | none => rw [hv] at he; cases he
    | some vs =>
      rw [hv] at he
      obtain ⟨es, hes, he⟩ := List.mem_flatten.mp he
      obtain ⟨u, -, rfl⟩ := List.mem_map.mp hes
      exact ih u e he
  | map id k t ihk iht =>
    rw [drops] at he
    cases hv : v.asMap with
    | none => rw [hv] at he; cases he
    | some entries =>
      rw [hv] at he
      obtain ⟨es, hes, he⟩ := List.mem_flatten.mp he
      obtain ⟨u, -, rfl⟩ := List.mem_map.mp hes
      rcases List.mem_append.mp he with he | he
      · exact ihk u.1 e he
      · exact iht u.2 e he
  | fields ty types hf ih =>
    rw [drops_fields hf] at he
    obtain ⟨t, ht, x, hx⟩ := collectFields_mem he
    exact ih t ht x e hx
  | arms ty arms ha ih =>
    rw [drops_arms ha] at he
    obtain ⟨t, ht, x, hx⟩ := collectArm_mem he
    exact ih t ht x e hx
  | handle id hd name => cases hd <;> simp [drops, dropOf] at he
  | _ => simp [drops, dropOf] at he

/-- What gives something back owns something. -/
theorem Ty.owns_of_gives (h : ty.gives what = true) : ty.owns what = true := by
  induction ty using Ty.ind with
  | type id t ih =>
    rw [Ty.gives, Ty.flatLeaves] at h
    rw [Ty.owns]
    exact ih h
  | fields ty types hf ih =>
    rw [Ty.gives_fields hf] at h
    obtain ⟨t, ht, hyes⟩ := List.any_eq_true.mp h
    rw [Ty.owns_fields hf]
    exact List.any_eq_true.mpr ⟨t, ht, ih t ht hyes⟩
  | arms ty arms ha ih =>
    rw [Ty.gives_arms ha] at h
    obtain ⟨o, ho, hyes⟩ := List.any_eq_true.mp h
    cases o with
    | none => cases hyes
    | some t =>
      rw [Ty.owns_arms ha]
      exact List.any_eq_true.mpr ⟨some t, ho, ih t ho hyes⟩
  | handle id hd name =>
    rw [Ty.gives_leaf (by rw [Ty.flatLeaves.eq_def])] at h
    cases hd with
    | own r => rw [Ty.owns]; exact h
    | borrow r => cases h
  | future id t =>
    rw [Ty.gives_leaf (by rw [Ty.flatLeaves.eq_def])] at h
    rw [Ty.owns]
    exact h
  | stream id t =>
    rw [Ty.gives_leaf (by rw [Ty.flatLeaves.eq_def])] at h
    rw [Ty.owns]
    exact h
  | string => rw [Ty.owns]
  | list id t ih => rw [Ty.owns]
  | map id k t ihk iht => rw [Ty.owns]
  | _ => rw [Ty.gives_leaf (by rw [Ty.flatLeaves.eq_def])] at h; cases h

end

/-! ## What is owned, read off the type -/

/-- A string, a list or a map stands in the type and not in a fixed-length list; for a deallocation
of handles also an own handle, a future or a stream. -/
inductive Ty.Frees (what : Deallocate) : Ty → Prop
  | string : Frees what .string
  | list {id t} : Frees what (.list id t)
  | map {id key value} : Frees what (.map id key value)
  | own {id resource name} (h : what = .listsAndOwn) : Frees what (.handle id (.own resource) name)
  | future {id t} (h : what = .listsAndOwn) : Frees what (.future id t)
  | stream {id t} (h : what = .listsAndOwn) : Frees what (.stream id t)
  | type {id t} (h : Frees what t) : Frees what (.type id t)
  | field {ty types t} (hf : ty.fieldTypes = some types) (ht : t ∈ types) (h : Frees what t) :
      Frees what ty
  | arm {ty arms t} (ha : ty.arms = some arms) (ht : some t ∈ arms) (h : Frees what t) :
      Frees what ty

/-- An error context stands in the type, or a fixed-length list of what is to be freed: what is
taken for something owned though nothing is done for it. -/
inductive Ty.Spares (what : Deallocate) : Ty → Prop
  | errorContext : Spares what .errorContext
  | elements {id t n} (h : t.Frees what) : Spares what (.fixedLengthList id t n)
  | fixedLengthList {id t n} (h : Spares what t) : Spares what (.fixedLengthList id t n)
  | type {id t} (h : Spares what t) : Spares what (.type id t)
  | field {ty types t} (hf : ty.fieldTypes = some types) (ht : t ∈ types) (h : Spares what t) :
      Spares what ty
  | arm {ty arms t} (ha : ty.arms = some arms) (ht : some t ∈ arms) (h : Spares what t) :
      Spares what ty

theorem Deallocate.handles_iff {what : Deallocate} : what.handles = true ↔ what = .listsAndOwn := by
  cases what <;> simp [Deallocate.handles]

theorem Ty.gives_iff {what : Deallocate} {ty : Ty} : ty.gives what = true ↔ ty.Frees what := by
  constructor
  · intro h
    induction ty using Ty.ind with
    | string => exact .string
    | list id t ih => exact .list
    | map id k t ihk iht => exact .map
    | type id t ih =>
      rw [Ty.gives, Ty.flatLeaves] at h
      exact .type (ih h)
    | fields ty types hf ih =>
      rw [Ty.gives_fields hf] at h
      obtain ⟨t, ht, hyes⟩ := List.any_eq_true.mp h
      exact .field hf ht (ih t ht hyes)
    -- a case with a payload decides
    | arms ty arms ha ih =>
      rw [Ty.gives_arms ha] at h
      obtain ⟨o, ho, hyes⟩ := List.any_eq_true.mp h
      cases o with
      | none => cases hyes
      | some t => exact .arm ha ho (ih t ho hyes)
    | handle id hd name =>
      rw [Ty.gives_leaf (by rw [Ty.flatLeaves.eq_def])] at h
      cases hd with
      | own r => exact .own (Deallocate.handles_iff.mp h)
      | borrow r => cases h
    | future id t =>
      rw [Ty.gives_leaf (by rw [Ty.flatLeaves.eq_def])] at h
      exact .future (Deallocate.handles_iff.mp h)
    | stream id t =>
      rw [Ty.gives_leaf (by rw [Ty.flatLeaves.eq_def])] at h
      exact .stream (Deallocate.handles_iff.mp h)
    | _ => rw [Ty.gives_leaf (by rw [Ty.flatLeaves.eq_def])] at h; cases h
  · intro h
    induction h with
    | type _ ih => rw [Ty.gives, Ty.flatLeaves]; exact ih
    | field hf ht _ ih => rw [Ty.gives_fields hf]; exact List.any_eq_true.mpr ⟨_, ht, ih⟩
    | arm ha ht _ ih => rw [Ty.gives_arms ha]; exact List.any_eq_true.mpr ⟨_, ht, ih⟩
    | own h | future h | stream h =>
      rw [Ty.gives_leaf (by rw [Ty.flatLeaves.eq_def])]
      exact Deallocate.handles_iff.mpr h
    | _ => rw [Ty.gives_leaf (by rw [Ty.flatLeaves.eq_def])]; rfl

/-- What counts as owned is freed or spared. -/
theorem Ty.owns_iff {what : Deallocate} {ty : Ty} :
    ty.owns what = true ↔ ty.Frees what ∨ ty.Spares what := by
  constructor
  · intro h
    induction ty using Ty.ind with
    | string => exact .inl .string
    | errorContext => exact .inr .errorContext
    | list id t ih => exact .inl .list
    | map id k t ihk iht => exact .inl .map
    | type id t ih =>
      rw [Ty.owns] at h
      exact (ih h).imp .type .type
    -- what its elements own, the list keeps
    | fixedLengthList id t n ih =>
      rw [Ty.owns] at h
      exact .inr ((ih h).elim .elements .fixedLengthList)
    | fields ty types hf ih =>
      rw [Ty.owns_fields hf] at h
      obtain ⟨t, ht, hyes⟩ := List.any_eq_true.mp h
      exact (ih t ht hyes).imp (.field hf ht) (.field hf ht)
    | arms ty arms ha ih =>
      rw [Ty.owns_arms ha] at h
      obtain ⟨o, ho, hyes⟩ := List.any_eq_true.mp h
      cases o with
      | none => cases hyes
      | some t => exact (ih t ho hyes).imp (.arm ha ho) (.arm ha ho)
    | handle id hd name =>
      cases hd with
      | own r => rw [Ty.owns] at h; exact .inl (.own (Deallocate.handles_iff.mp h))
      | borrow r => rw [Ty.owns] at h; cases h
    | future id t => rw [Ty.owns] at h; exact .inl (.future (Deallocate.handles_iff.mp h))
    | stream id t => rw [Ty.owns] at h; exact .inl (.stream (Deallocate.handles_iff.mp h))
    | _ => rw [Ty.owns] at h; cases h
  · rintro (h | h)
    · exact Ty.owns_of_gives (Ty.gives_iff.mpr h)
    · induction h with
      | errorContext => rw [Ty.owns]
      | elements h => rw [Ty.owns]; exact Ty.owns_of_gives (Ty.gives_iff.mpr h)
      | fixedLengthList _ ih => rw [Ty.owns]; exact ih
      | type _ ih => rw [Ty.owns]; exact ih
      | field hf ht _ ih => rw [Ty.owns_fields hf]; exact List.any_eq_true.mpr ⟨_, ht, ih⟩
      | arm ha ht _ ih => rw [Ty.owns_arms ha]; exact List.any_eq_true.mpr ⟨_, ht, ih⟩

end WitBindgen
