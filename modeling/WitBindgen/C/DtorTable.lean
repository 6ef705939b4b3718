import WitBindgen.C.PrimNames
import WitBindgen.C.Released

/-!
# Destructors over a whole world

The table of destructors has no entry for an id whose typedef was there before
it: `define_live_types` goes on to the next type before `define_dtor` is called.
What contains such a type finds nothing to call and leaves its buffers alone. A
destructor is complete exactly if nothing below it that owns a buffer is such a
repetition.
-/

namespace WitBindgen.C

variable {D : Defs}

/-! ## What is below a type -/

/-- Some value of the type has a buffer. -/
def Owns (D : Defs) (i : TypeId) : Prop :=
  ∃ v, HasShape v (D.shape (.id i)) ∧ v.buffers ≠ []

/-- `Below D c i`: destroying a value of `i` comes to a value of `c`. -/
inductive Below (D : Defs) (c : TypeId) : TypeId → Prop
  | refl : Below D c c
  | step {i j} : .id j ∈ freedTypes (D.types i) → Below D c j → Below D c i

/-- The same, for `c` below a component of `i`. -/
def Inside (D : Defs) (c i : TypeId) : Prop :=
  ∃ j, .id j ∈ freedTypes (D.types i) ∧ Below D c j

theorem below_iff {c i : TypeId} : Below D c i ↔ c = i ∨ Inside D c i := by
  constructor
  · intro h
    cases h with
    | refl => exact Or.inl rfl
    | step hj h => exact Or.inr ⟨_, hj, h⟩
  · rintro (rfl | ⟨j, hj, h⟩)
    · exact .refl
    · exact .step hj h

theorem freedTypes_subset (k : TypeDefKind) : ∀ t ∈ freedTypes k, t ∈ k.components := by
  intro t ht
  cases k with
  | future | stream => cases ht
  | _ => exact ht

theorem rank_freed {i j : TypeId} (h : .id j ∈ freedTypes (D.types i)) : D.rank j < D.rank i :=
  D.rank_lt i j (freedTypes_subset _ _ h)

theorem rank_inside {c i : TypeId} (h : Inside D c i) : D.rank c < D.rank i := by
  obtain ⟨j, hj, hbelow⟩ := h
  have hle : D.rank c ≤ D.rank j := by
    clear hj
    induction hbelow with
    | refl => exact Nat.le_refl _
    | step hm _ ih => exact Nat.le_of_lt (Nat.lt_of_le_of_lt ih (rank_freed hm))
  exact Nat.lt_of_le_of_lt hle (rank_freed hj)

theorem complete_none_iff (i : TypeId) : Complete (D.shape (.id i)) none ↔ ¬ Owns D i := by
  have hsound : Sound (D.shape (.id i)) none := Sound.of_part fun v _ => Part.nil
  rw [hsound.complete_iff]
  constructor
  · rintro h ⟨v, hv, hne⟩
    exact hne (h v hv).symm
  · intro h v hv
    by_contra hne
    exact h ⟨v, hv, fun hnil => hne hnil.symm⟩

/-- Owning a buffer is inherited from what is freed. -/
theorem Owns.of_freed {i j : TypeId} (hfixed : ∀ t n, D.types i ≠ .fixedLengthList t n)
    (hj : .id j ∈ freedTypes (D.types i)) (h : Owns D j) : Owns D i := by
  by_contra hnot
  have hmade : MadeOf D (fun _ => none) (D.shape (.id i))
      (dtorBody i (fun _ => none) (D.types i)) (freedTypes (D.types i)) :=
    dtorBody_madeOf rfl (fun _ _ _ => rfl) (fun t _ => Sound.of_part fun v _ => Part.nil) hfixed
  have hcomplete : Complete (D.shape (.id i)) (dtorBody i (fun _ => none) (D.types i)) := by
    rw [hmade.1.complete_iff]
    intro v hv
    have hnil : v.buffers = [] := by
      by_contra hne
      exact hnot ⟨v, hv, hne⟩
    have hsub := hmade.1.frees v hv
    rw [hnil] at hsub ⊢
    exact List.sublist_nil.mp hsub
  exact (complete_none_iff j).mp (hmade.2.mp hcomplete _ hj) h

theorem dtorBody_congr {i : TypeId} {f f' : TypeRef → Option Dtor} {k : TypeDefKind}
    (hself : f (.id i) = f' (.id i)) (h : ∀ t ∈ freedTypes k, f t = f' t) :
    dtorBody i f k = dtorBody i f' k := by
  cases k with
  | record fields =>
    have hmap : fields.map (fun x => f x.2) = fields.map fun x => f' x.2 :=
      List.map_congr_left fun x hx => h x.2 (List.mem_map_of_mem hx)
    simp only [dtorBody, hmap]
  | tuple types =>
    have hmap : types.map f = types.map f' := List.map_congr_left h
    simp only [dtorBody, hmap]
  | variant cases =>
    have hmap : (cases.map fun c => c.2.bind f) = cases.map fun c => c.2.bind f' := by
      refine List.map_congr_left fun c hc => ?_
      obtain ⟨n, o⟩ := c
      cases o with
      | none => rfl
      | some t => exact h t (List.mem_flatMap.mpr ⟨_, hc, by simp⟩)
    simp only [dtorBody, hmap]
  | result ok err =>
    have hok : ok.bind f = ok.bind f' := by
      cases ok with
      | none => rfl
      | some t => exact h t (List.mem_cons_self ..)
    have herr : err.bind f = err.bind f' := by
      cases err with
      | none => rfl
      | some t => exact h t (List.mem_append_right _ (List.mem_singleton_self t))
    simp only [dtorBody, hok, herr]
  | option t | list t | type t => simp only [dtorBody, h t (List.mem_singleton_self t)]
  | map k v => simp only [dtorBody, h k (List.mem_cons_self ..), h v (by simp [freedTypes,
      TypeDefKind.components])]
  | handle hd => exact h _ (List.mem_singleton_self _)
  | future | stream => exact hself
  | _ => rfl

/-! ## What was given -/

/-- The first turn of a type decides, until the type is forgotten. -/
theorem repeated_turn {given : List Given} {i : TypeId} (hi : listed given i = false) (j : TypeId) :
    D.repeated (.type i :: given) j =
      if j = i then D.isPrim i && D.namedAlike given i else D.repeated given j := by
  rw [Defs.repeated]
  by_cases hj : j = i
  · subst hj
    rw [if_pos ⟨rfl, hi⟩, if_pos rfl]
  · rw [if_neg fun h => hj h.1.symm, if_neg hj]

theorem repeated_again {given : List Given} {i : TypeId} (hi : listed given i = true) (j : TypeId) :
    D.repeated (.type i :: given) j = D.repeated given j := by
  rw [Defs.repeated, if_neg]
  rintro ⟨rfl, hno⟩
  rw [hi] at hno
  cases hno

theorem mem_of_listed {given : List Given} {i : TypeId} (h : listed given i = true) :
    .type i ∈ given := by
  induction given with
  | nil => cases h
  | cons x given ih =>
    cases x with
    | type j =>
      rw [listed, Bool.or_eq_true, decide_eq_true_eq] at h
      rcases h with rfl | h
      · exact List.mem_cons_self ..
      · exact List.mem_cons_of_mem _ (ih h)
    | keep keep => exact List.mem_cons_of_mem _ (ih (Bool.and_eq_true_iff.mp h).2)

theorem namedAlike_iff {given : List Given} {i : TypeId} : D.namedAlike given i = true ↔
    ∃ j, .type j ∈ given ∧ D.isPrim j = true ∧ D.primName j = D.primName i := by
  rw [Defs.namedAlike, List.any_eq_true]
  constructor
  · rintro ⟨x, hx, hyes⟩
    cases x with
    | type j =>
      rw [Bool.and_eq_true, decide_eq_true_eq] at hyes
      exact ⟨j, hx, hyes⟩
    | keep keep => cases hyes
  · rintro ⟨j, hj, hprim, hname⟩
    exact ⟨.type j, hj, by simp [hprim, hname]⟩

/-! ## The table -/

/-- What `free` finds while the type `i` itself is not in the table. -/
def Gen.freeBelow (g : Gen) (i : TypeId) (t : TypeRef) : Option Dtor :=
  if t = .id i then none else g.free t

/-- The destructor of `e` is complete exactly if no repetition below it owns a
buffer. -/
def Printed.Exact (D : Defs) (e : Printed) : Prop :=
  Complete (D.shape (.id e.id)) e.dtor ↔
    ∀ c, Inside D c e.id → D.repeated e.given c = true → ¬ Owns D c

/-- The typedef `e` is the one of `i`: it was printed for `i`, or under the name
that the structure of `i` spells. -/
def Printed.For (D : Defs) (e : Printed) (i : TypeId) : Prop :=
  e.id = i ∨ D.isPrim e.id = true ∧ D.isPrim i = true ∧ D.primName e.id = D.primName i

structure Inv (D : Defs) (g : Gen) : Prop where
  known : Known D g.typeNames
  fixed : ∀ i ∈ g.typeNames, ∀ t n, D.types i ≠ .fixedLengthList t n
  table : ∀ i ∈ g.typeNames, g.dtorFuncs i =
    if D.repeated g.given i then none else dtorBody i (g.freeBelow i) (D.types i)
  absent : ∀ i, i ∉ g.typeNames → g.dtorFuncs i = none
  listed : ∀ i, i ∈ g.typeNames ↔ listed g.given i = true
  names : ∀ n, n ∈ g.primNames ↔ ∃ i, .type i ∈ g.given ∧ D.isPrim i = true ∧ D.primName i = n
  resource : ∀ j k, D.shape (.id j) = .resource k → g.dtorFuncs j = none
  exact : ∀ e ∈ g.printed, e.Exact D
  readable : ∀ e ∈ g.printed, D.isPrim e.id = true → Spelled (D.shape (.id e.id))
  spelled : ∀ n ∈ g.primNames, ∃ e ∈ g.printed, D.isPrim e.id = true ∧ D.primName e.id = n
  typedef : ∀ i ∈ g.typeNames, (∃ e ∈ g.printed, e.For D i) ∨ ∃ h, D.types i = .handle h

theorem inv_initial : Inv D Gen.initial where
  known := ⟨nofun, nofun⟩
  fixed := nofun
  table := nofun
  absent _ _ := rfl
  listed _ := ⟨nofun, nofun⟩
  names _ := ⟨nofun, fun ⟨_, hi, _⟩ => nomatch hi⟩
  resource _ _ _ := rfl
  exact := nofun
  readable := nofun
  spelled := nofun
  typedef := nofun

section

variable {g g' : Gen} {i : TypeId}

theorem Gen.freeBelow_of_ne {j : TypeId} (h : j ≠ i) : g.freeBelow i (.id j) = g.dtorFuncs j := by
  rw [freeBelow, if_neg (by simpa using h)]
  rfl

theorem Gen.freeBelow_of_none (h : g.dtorFuncs i = none) : g.freeBelow i = g.free := by
  funext t
  rw [freeBelow]
  split
  · next heq => rw [heq]; exact h.symm
  · rfl

/-- What a destructor made of the table does, by what is in the table. -/
theorem Inv.body (h : Inv D g) (hfixed : ∀ t n, D.types i ≠ .fixedLengthList t n)
    (hplain : .errorContext ∉ freedTypes (D.types i))
    (hbelow : ∀ j, .id j ∈ freedTypes (D.types i) →
      Sound (D.shape (.id j)) (g.dtorFuncs j) ∧ (Complete (D.shape (.id j)) (g.dtorFuncs j) ↔
        ∀ c, Below D c j → D.repeated g.given c = true → ¬ Owns D c)) :
    Sound (D.shape (.id i)) (dtorBody i (g.freeBelow i) (D.types i)) ∧
      (Complete (D.shape (.id i)) (dtorBody i (g.freeBelow i) (D.types i)) ↔
        ∀ c, Inside D c i → D.repeated g.given c = true → ¬ Owns D c) := by
  -- a type is not among those it is made of
  have hne : ∀ {j}, .id j ∈ freedTypes (D.types i) → j ≠ i := by
    rintro j hj rfl
    exact Nat.lt_irrefl _ (rank_freed hj)
  have hleaf : ∀ t ∈ freedTypes (D.types i), (∀ j, t ≠ .id j) →
      Sound (D.shape t) (g.freeBelow i t) ∧ Complete (D.shape t) (g.freeBelow i t) := by
    intro t ht hid
    rw [Gen.freeBelow, if_neg (hid i)]
    cases t with
    | prim p => exact complete_scalar rfl
    | string => exact complete_string
    | errorContext => exact absurd ht hplain
    | id j => exact absurd rfl (hid j)
  have hsound : ∀ t ∈ freedTypes (D.types i), Sound (D.shape t) (g.freeBelow i t) := by
    intro t ht
    by_cases hid : ∃ j, t = .id j
    · obtain ⟨j, rfl⟩ := hid
      rw [Gen.freeBelow_of_ne (hne ht)]
      exact (hbelow j ht).1
    · exact (hleaf t ht fun j heq => hid ⟨j, heq⟩).1
  -- a resource has no entry, also under its aliases
  have hresource : ∀ j k, D.shape (.id j) = .resource k → g.freeBelow i (.id j) = none := by
    intro j k hj
    rw [Gen.freeBelow]
    split
    · rfl
    · exact h.resource j k hj
  have hmade := dtorBody_madeOf (if_pos rfl) hresource hsound hfixed
  refine ⟨hmade.1, hmade.2.trans ?_⟩
  constructor
  · rintro hall c ⟨j, hj, hbelow'⟩
    have hj' := hall _ hj
    rw [Gen.freeBelow_of_ne (hne hj)] at hj'
    exact (hbelow j hj).2.mp hj' c hbelow'
  · intro hall t ht
    by_cases hid : ∃ j, t = .id j
    · obtain ⟨j, rfl⟩ := hid
      rw [Gen.freeBelow_of_ne (hne ht)]
      exact (hbelow j ht).2.mpr fun c hc => hall c ⟨j, ht, hc⟩
    · exact (hleaf t ht fun j heq => hid ⟨j, heq⟩).2

theorem Owns.of_below {c : TypeId} (h : Inv D g) (hi : i ∈ g.typeNames) (hc : Below D c i)
    (howns : Owns D c) : Owns D i := by
  induction hc with
  | refl => exact howns
  | step hj _ ih =>
    exact (ih (h.known.closed _ hi _ (freedTypes_subset _ _ hj))).of_freed (h.fixed _ hi) hj

/-- What the table has for a type with a name. -/
theorem Inv.complete (h : Inv D g) (hi : i ∈ g.typeNames) :
    Sound (D.shape (.id i)) (g.dtorFuncs i) ∧ (Complete (D.shape (.id i)) (g.dtorFuncs i) ↔
      ∀ c, Below D c i → D.repeated g.given c = true → ¬ Owns D c) := by
  induction hn : D.rank i using Nat.strongRecOn generalizing i with
  | _ n ih =>
    subst hn
    rw [h.table i hi]
    cases hrep : D.repeated g.given i with
    | true =>
      rw [if_pos rfl]
      refine ⟨Sound.of_part fun v _ => Part.nil, (complete_none_iff i).trans ?_⟩
      exact ⟨fun hnot c hc _ howns => hnot (howns.of_below h hi hc),
        fun hall => hall i .refl hrep⟩
    | false =>
      rw [if_neg (by decide)]
      obtain ⟨hsound, hcomplete⟩ := h.body (h.fixed i hi) (h.known.plain i hi) fun j hj =>
        ih _ (rank_freed hj) (h.known.closed i hi j (freedTypes_subset _ _ hj)) rfl
      refine ⟨hsound, hcomplete.trans ⟨fun hall c hc hcrep => ?_, fun hall c hc => ?_⟩⟩
      · rcases below_iff.mp hc with rfl | hc
        · rw [hrep] at hcrep
          cases hcrep
        · exact hall c hc hcrep
      · exact hall c (below_iff.mpr (Or.inr hc))

/-! ## One type after another -/

/-- A resource, under any number of aliases, has nothing to destroy. -/
theorem Inv.body_resource (h : Inv D g) {k : TypeId} (hshape : D.shape (.id i) = .resource k) :
    dtorBody i g.free (D.types i) = none := by
  rw [D.shape_id] at hshape
  cases hk : D.types i with
  | type t =>
    rw [hk] at hshape
    cases t with
    | id j => exact h.resource j k hshape
    | _ => cases hshape
  | resource => rfl
  | _ => rw [hk] at hshape; cases hshape

/-- What a type is found to be on its turn: `d` is its destructor, and `r` tells
that its name was there before it. -/
structure Turn (D : Defs) (g : Gen) (i : TypeId) (d : Option Dtor) (r : Bool)
    (printed : List Printed) : Prop where
  components : ∀ j, .id j ∈ (D.types i).components → j ∈ g.typeNames
  plain : .errorContext ∉ freedTypes (D.types i)
  fixed : ∀ t n, D.types i ≠ .fixedLengthList t n
  repeats : r = (D.isPrim i && D.namedAlike g.given i)
  dtor : d = if r then none else dtorBody i g.free (D.types i)
  printed : printed = g.printed ∨ r = false ∧ printed = ⟨i, d, .type i :: g.given⟩ :: g.printed

theorem Known.enter (h : Inv D g) {d : Option Dtor} {r : Bool} {printed : List Printed}
    (ht : Turn D g i d r printed) : Known D (i :: g.typeNames) := by
  constructor
  · intro j hj m hm
    rcases List.mem_cons.mp hj with rfl | hj
    · exact List.mem_cons_of_mem _ (ht.components m hm)
    · exact List.mem_cons_of_mem _ (h.known.closed j hj m hm)
  · intro j hj
    rcases List.mem_cons.mp hj with rfl | hj
    · exact ht.plain
    · exact h.known.plain j hj

theorem Turn.repeated {d : Option Dtor} {r : Bool} {printed : List Printed} (ht : Turn D g i d r printed)
    (h : Inv D g) (hi : i ∉ g.typeNames) (j : TypeId) :
    D.repeated (.type i :: g.given) j = if j = i then r else D.repeated g.given j := by
  rw [ht.repeats]
  exact repeated_turn (Bool.eq_false_iff.mpr fun hl => hi ((h.listed i).mpr hl)) j

theorem Turn.subset {d : Option Dtor} {r : Bool} {printed : List Printed} (ht : Turn D g i d r printed) :
    ∀ e ∈ g.printed, e ∈ printed := by
  intro e he
  rcases ht.printed with rfl | ⟨-, rfl⟩
  · exact he
  · exact List.mem_cons_of_mem _ he

theorem Turn.mem_printed {d : Option Dtor} {r : Bool} {printed : List Printed} (ht : Turn D g i d r printed) :
    ∀ e ∈ printed, e ∈ g.printed ∨ r = false ∧ e = ⟨i, d, .type i :: g.given⟩ := by
  intro e he
  rcases ht.printed with rfl | ⟨hr, rfl⟩
  · exact Or.inl he
  · exact (List.mem_cons.mp he).symm.imp_right fun heq => ⟨hr, heq⟩

theorem update_same {α : Type} {f : TypeId → α} {x : α} (h : f i = x) :
    (fun j => if j = i then x else f j) = f := by
  funext j
  split
  · next heq => rw [heq, h]
  · rfl

/-- The generator once the type has had its turn. -/
def Gen.enter (g : Gen) (i : TypeId) (d : Option Dtor) (names : List (List Token))
    (printed : List Printed) : Gen :=
  ⟨i :: g.typeNames, names, fun j => if j = i then d else g.dtorFuncs j, .type i :: g.given, printed⟩

theorem Gen.enter_none (hnone : g.dtorFuncs i = none) {names : List (List Token)} {printed : List Printed} :
    g.enter i none names printed =
      ⟨i :: g.typeNames, names, g.dtorFuncs, .type i :: g.given, printed⟩ := by
  rw [Gen.enter, update_same hnone]

/-- The new type's own entry is made of what the table had before. -/
theorem Gen.freeBelow_enter_self (hnone : g.dtorFuncs i = none) {d : Option Dtor}
    {names : List (List Token)} {printed : List Printed} :
    dtorBody i ((g.enter i d names printed).freeBelow i) (D.types i) = dtorBody i g.free (D.types i) := by
  refine (dtorBody_congr ?_ fun t _ => ?_).symm
  · simpa [Gen.enter, Gen.freeBelow, Gen.free] using hnone
  · rw [Gen.freeBelow]
    split
    · next heq => rw [heq]; exact hnone
    · next hne =>
        cases t with
        | id m =>
          have hm : m ≠ i := fun heq => hne (by rw [heq])
          simp [Gen.enter, Gen.free, hm]
        | _ => rfl

/-- No destructor in the table is made of the new one. -/
theorem Inv.freeBelow_enter (h : Inv D g) (hi : i ∉ g.typeNames) {j : TypeId} (hj : j ∈ g.typeNames)
    {d : Option Dtor} {names : List (List Token)} {printed : List Printed} :
    dtorBody j ((g.enter i d names printed).freeBelow j) (D.types j) =
      dtorBody j (g.freeBelow j) (D.types j) := by
  refine (dtorBody_congr (by simp [Gen.freeBelow]) fun t hfreed => ?_).symm
  cases t with
  | id m =>
    have hm : m ≠ i := by
      rintro rfl
      exact hi (h.known.closed j hj m (freedTypes_subset _ _ hfreed))
    simp [Gen.enter, Gen.freeBelow, Gen.free, hm]
  | _ => rfl

theorem Inv.enter (h : Inv D g) (hi : i ∉ g.typeNames) {d : Option Dtor} {r : Bool}
    (names : List (List Token)) {printed : List Printed} (ht : Turn D g i d r printed)
    (hspelled : ∀ n ∈ names, ∃ e ∈ printed, D.isPrim e.id = true ∧ D.primName e.id = n)
    (hnames : ∀ n, n ∈ names ↔ n ∈ g.primNames ∨ D.isPrim i = true ∧ D.primName i = n)
    (htypedef : (∃ e ∈ printed, e.For D i) ∨ ∃ h, D.types i = .handle h) :
    Inv D (g.enter i d names printed) := by
  have hnone := h.absent i hi
  have hrepeated := ht.repeated h hi
  refine ⟨.enter h ht, ?_, ?_, ?_, fun j => ?_, fun n => ?_, ?_, ?_, ?_, hspelled, ?_⟩
  · intro j hj
    rcases List.mem_cons.mp hj with rfl | hj
    · exact ht.fixed
    · exact h.fixed j hj
  · intro j hj
    by_cases hji : j = i
    · subst hji
      rw [Gen.freeBelow_enter_self hnone]
      simp only [Gen.enter, if_pos, hrepeated]
      exact ht.dtor
    · have hmem : j ∈ g.typeNames := (List.mem_cons.mp hj).resolve_left hji
      rw [h.freeBelow_enter hi hmem]
      simp only [Gen.enter, if_neg hji, hrepeated]
      exact h.table j hmem
  · intro j hj
    obtain ⟨hji, hj⟩ : j ≠ i ∧ j ∉ g.typeNames := by simpa [Gen.enter] using hj
    simpa [Gen.enter, hji] using h.absent j hj
  · rw [Gen.enter, List.mem_cons, C.listed, Bool.or_eq_true, decide_eq_true_eq, h.listed j, eq_comm]
  · rw [Gen.enter, hnames, h.names n]
    constructor
    · rintro (⟨j, hj, hall⟩ | hi')
      · exact ⟨j, List.mem_cons_of_mem _ hj, hall⟩
      · exact ⟨i, List.mem_cons_self .., hi'⟩
    · rintro ⟨j, hj, hall⟩
      rcases List.mem_cons.mp hj with heq | hj
      · cases heq
        exact Or.inr hall
      · exact Or.inl ⟨j, hj, hall⟩
  · intro j k hshape
    by_cases hji : j = i
    · subst hji
      simp only [Gen.enter, if_pos]
      rw [ht.dtor, h.body_resource hshape]
      exact ite_self _
    · simpa [Gen.enter, hji] using h.resource j k hshape
  · intro e he
    rcases ht.mem_printed e he with he | ⟨hr, rfl⟩
    · exact h.exact e he
    -- its own destructor is made of those below, whose turn was before
    · have hbody := h.body ht.fixed ht.plain fun j hj =>
        h.complete (ht.components j (freedTypes_subset _ _ hj))
      rw [Gen.freeBelow_of_none hnone] at hbody
      have hd : d = dtorBody i g.free (D.types i) := by rw [ht.dtor, hr]; rfl
      rw [Printed.Exact, hd]
      refine hbody.2.trans (forall₂_congr fun c hc => ?_)
      rw [hrepeated c, if_neg (fun heq => Nat.lt_irrefl _ (heq ▸ rank_inside hc))]
  · intro e he hprim
    rcases ht.mem_printed e he with he | ⟨-, rfl⟩
    · exact h.readable e he hprim
    · exact (Known.enter h ht).spelled (List.mem_cons_self ..) hprim
  · intro j hj
    rcases List.mem_cons.mp hj with rfl | hj
    · exact htypedef
    · rcases h.typedef j hj with ⟨e, he, hfor⟩ | hhandle
      · exact Or.inl ⟨e, ht.subset e he, hfor⟩
      · exact Or.inr hhandle

theorem fixed_of_printable (h : D.printable i = true) :
    ∀ t n, D.types i ≠ .fixedLengthList t n := by
  intro t n hk
  rw [Defs.printable, hk] at h
  cases hname : D.name i <;> rw [hname] at h <;> cases h

theorem fixed_of_isPrim (h : D.isPrim i = true) : ∀ t n, D.types i ≠ .fixedLengthList t n := by
  intro t n hk
  rw [Defs.isPrim, Resolve.weight, Defs.isPrimTo, hk, Bool.and_false] at h
  cases h

/-- `define_dtor` gives `i` its typedef and fills in its entry. -/
theorem Inv.defineDtor (h : Inv D g) (hi : i ∉ g.typeNames) {names : List (List Token)}
    (hcomponents : ∀ j, .id j ∈ (D.types i).components → j ∈ g.typeNames)
    (hnames : ∀ n, n ∈ names ↔ n ∈ g.primNames ∨ D.isPrim i = true ∧ D.primName i = n)
    (hnew : (D.isPrim i && D.namedAlike g.given i) = false)
    (hok : Gen.defineDtor D ⟨i :: g.typeNames, names, g.dtorFuncs, .type i :: g.given, g.printed⟩ i =
      .ok g') : Inv D g' ∧ g'.typeNames = i :: g.typeNames := by
  rw [Gen.defineDtor] at hok
  split at hok
  · next hcond =>
      rw [Bool.and_eq_true, Bool.not_eq_true', List.contains_eq_mem, decide_eq_false_iff_not] at hcond
      obtain ⟨hprintable, hplain⟩ := hcond
      cases hok
      have hturn : Turn D g i (dtorBody i g.free (D.types i)) false
          (⟨i, dtorBody i g.free (D.types i), .type i :: g.given⟩ :: g.printed) :=
        ⟨hcomponents, hplain, fixed_of_printable hprintable, hnew.symm, rfl, Or.inr ⟨rfl, rfl⟩⟩
      have henter := h.enter hi names hturn (fun n hn => ?_) hnames
        (Or.inl ⟨_, List.mem_cons_self .., Or.inl rfl⟩)
      · exact ⟨henter, rfl⟩
      · rcases (hnames n).mp hn with hn | ⟨hprim, hname⟩
        · obtain ⟨e, he, hname⟩ := h.spelled n hn
          exact ⟨e, List.mem_cons_of_mem _ he, hname⟩
        · exact ⟨_, List.mem_cons_self .., hprim, hname⟩
  · cases hok

/-- A type that has its name already. -/
theorem Inv.again (h : Inv D g) (hi : i ∈ g.typeNames) :
    Inv D { g with given := .type i :: g.given } := by
  have hlisted := (h.listed i).mp hi
  refine { h with table := fun j hj => ?_, listed := fun j => ?_, names := fun n => ?_ }
  · rw [repeated_again hlisted]
    exact h.table j hj
  · rw [C.listed, Bool.or_eq_true, decide_eq_true_eq]
    exact (h.listed j).trans ⟨Or.inr, fun hl => hl.elim (fun heq => heq ▸ hlisted) id⟩
  · rw [h.names n]
    constructor
    · rintro ⟨j, hj, hall⟩
      exact ⟨j, List.mem_cons_of_mem _ hj, hall⟩
    · rintro ⟨j, hj, hall⟩
      rcases List.mem_cons.mp hj with heq | hj
      · cases heq
        exact ⟨i, mem_of_listed hlisted, hall⟩
      · exact ⟨j, hj, hall⟩

theorem not_isPrim_of_named (h : (D.name i).isSome = true) : D.isPrim i = false := by
  obtain ⟨s, hs⟩ := Option.isSome_iff_exists.mp h
  rw [Defs.isPrim, Resolve.weight, Defs.isPrimTo, hs]
  rfl

/-- A turn of `define_live_types`. -/
theorem Inv.defineType (h : Inv D g)
    (hcomponents : ∀ j, .id j ∈ (D.types i).components → j ∈ g.typeNames)
    (hok : g.defineType D i = .ok g') :
    Inv D g' ∧ i ∈ g'.typeNames ∧ ∀ j ∈ g.typeNames, j ∈ g'.typeNames := by
  have entered : ∀ g', Inv D g' ∧ g'.typeNames = i :: g.typeNames →
      Inv D g' ∧ i ∈ g'.typeNames ∧ ∀ j ∈ g.typeNames, j ∈ g'.typeNames := by
    rintro g' ⟨hinv, heq⟩
    rw [heq]
    exact ⟨hinv, List.mem_cons_self .., fun j hj => List.mem_cons_of_mem i hj⟩
  rw [Gen.defineType] at hok
  split at hok
  · next hi =>
      cases hok
      exact ⟨h.again hi, hi, fun j hj => hj⟩
  next hi =>
  split at hok
  · cases hok
  next hcontext =>
  split at hok
  · next hname =>
      have hprim : D.isPrim i = false := not_isPrim_of_named hname
      exact entered _ (h.defineDtor hi hcomponents (by simp [hprim]) (by rw [hprim]; rfl) hok)
  next hname =>
  have hplain : .errorContext ∉ (D.types i).components := by
    intro hmem
    refine hcontext (Bool.and_eq_true_iff.mpr ⟨?_, ?_⟩)
    · rw [Bool.eq_false_iff.mpr hname |> Option.isSome_eq_false_iff.mp]
    · rw [List.contains_eq_mem, decide_eq_true hmem]
  have hplain' := fun hmem => hplain (freedTypes_subset _ _ hmem)
  split at hok
  · next hprim =>
      split at hok
      · next hrepeat =>
          -- the typedef is that of another id: no destructor is made
          cases hok
          obtain ⟨e, he, hprim', hname'⟩ := h.spelled _ hrepeat
          have halike : D.namedAlike g.given i = true := namedAlike_iff.mpr ((h.names _).mp hrepeat)
          have hturn : Turn D g i none true g.printed :=
            ⟨hcomponents, hplain', fixed_of_isPrim hprim, by rw [hprim, halike]; rfl, rfl, Or.inl rfl⟩
          have henter := h.enter hi g.primNames hturn h.spelled
            (fun n => ⟨Or.inl, fun hn => hn.elim id fun heq => heq.2 ▸ hrepeat⟩)
            (Or.inl ⟨e, he, Or.inr ⟨hprim', hprim, hname'⟩⟩)
          rw [Gen.enter_none (h.absent i hi)] at henter
          exact entered _ ⟨henter, rfl⟩
      · next hfresh =>
          have halike : D.namedAlike g.given i = false := by
            refine Bool.eq_false_iff.mpr fun hyes => hfresh ?_
            exact (h.names _).mpr (namedAlike_iff.mp hyes)
          refine entered _ (h.defineDtor hi hcomponents (fun n => ?_) (by rw [halike, Bool.and_false]) hok)
          rw [List.mem_cons, eq_comm, or_comm]
          exact or_congr_right ⟨fun heq => ⟨hprim, heq⟩, And.right⟩
  next hprim =>
  have hprim : D.isPrim i = false := Bool.eq_false_iff.mpr hprim
  have hnew : (D.isPrim i && D.namedAlike g.given i) = false := by rw [hprim]; rfl
  have same : ∀ n, n ∈ g.primNames ↔ n ∈ g.primNames ∨ D.isPrim i = true ∧ D.primName i = n := by
    simp [hprim]
  · split at hok
    · next hd hk =>
        split at hok
        · exact entered _ (h.defineDtor hi hcomponents same hnew hok)
        · -- a handle to a resource has its typedef beside the resource
          cases hok
          obtain ⟨k, hshape⟩ := D.handles i hd hk
          have hturn : Turn D g i none false g.printed := by
            refine ⟨hcomponents, hplain', fun t n heq => ?_, hnew.symm, ?_, Or.inl rfl⟩
            · rw [hk] at heq
              cases heq
            · rw [hk]
              exact (h.resource _ k hshape).symm
          have henter := h.enter hi g.primNames hturn h.spelled same (Or.inr ⟨hd, hk⟩)
          rw [Gen.enter_none (h.absent i hi)] at henter
          exact entered _ ⟨henter, rfl⟩
    · exact entered _ (h.defineDtor hi hcomponents same hnew hok)

/-- `define_live_types`, types after their components. -/
theorem Inv.defineLiveTypes {live : List TypeId} (h : Inv D g) (known : List TypeId)
    (hknown : ∀ j ∈ known, j ∈ g.typeNames) (hlive : Live D known live)
    (hok : g.defineLiveTypes D live = .ok g') : Inv D g' := by
  induction live generalizing g known with
  | nil => cases hok; exact h
  | cons i live ih =>
    obtain ⟨hcomponents, hlive⟩ := hlive
    rw [Gen.defineLiveTypes] at hok
    cases hturn : g.defineType D i with
    | error p => rw [hturn] at hok; cases hok
    | ok g₁ =>
      rw [hturn] at hok
      obtain ⟨h₁, hi, hsubset⟩ := h.defineType (fun j hj => hknown j (hcomponents j hj)) hturn
      refine ih h₁ (i :: known) (fun j hj => ?_) hlive hok
      rcases List.mem_cons.mp hj with rfl | hj
      · exact hi
      · exact hsubset j (hknown j hj)

/-- `remove_types_redefined_by_exports`: names and destructors go together. -/
theorem Inv.removeTypes (h : Inv D g) {keep : TypeId → Bool}
    (hkeep : ∀ i, keep i = true → ∀ j, .id j ∈ (D.types i).components → keep j = true) :
    Inv D (g.removeTypes keep) := by
  have hmem : ∀ i, i ∈ (g.removeTypes keep).typeNames ↔ i ∈ g.typeNames ∧ keep i = true :=
    fun i => List.mem_filter
  refine ⟨⟨fun i hi j hj => ?_, fun i hi => h.known.plain i ((hmem i).mp hi).1⟩,
    fun i hi => h.fixed i ((hmem i).mp hi).1, fun i hi => ?_, fun i hi => ?_, fun i => ?_, fun n => ?_,
    fun j k hshape => ?_, h.exact, h.readable, h.spelled,
    fun i hi => h.typedef i ((hmem i).mp hi).1⟩
  · obtain ⟨hi, hk⟩ := (hmem i).mp hi
    exact (hmem j).mpr ⟨h.known.closed i hi j hj, hkeep i hk j hj⟩
  · obtain ⟨hi, hk⟩ := (hmem i).mp hi
    -- with a type all of its components stay
    have hcongr : dtorBody i (g.freeBelow i) (D.types i) =
        dtorBody i ((g.removeTypes keep).freeBelow i) (D.types i) := by
      refine dtorBody_congr (by simp [Gen.freeBelow]) fun t hfreed => ?_
      cases t with
      | id j =>
        have hj := hkeep i hk j (freedTypes_subset _ _ hfreed)
        simp [Gen.freeBelow, Gen.free, Gen.removeTypes, hj]
      | _ => rfl
    rw [← hcongr]
    simpa [Gen.removeTypes, Defs.repeated, hk] using h.table i hi
  · cases hk : keep i with
    | false => simp [Gen.removeTypes, hk]
    | true =>
      have habsent := h.absent i fun hi' => hi ((hmem i).mpr ⟨hi', hk⟩)
      simpa [Gen.removeTypes, hk] using habsent
  · rw [hmem, h.listed i, and_comm]
    exact (Bool.and_eq_true_iff (x := keep i)).symm
  · refine (h.names n).trans (exists_congr fun i => and_congr_left' ⟨List.mem_cons_of_mem _, fun hi => ?_⟩)
    exact (List.mem_cons.mp hi).resolve_left (by simp)
  · simp [Gen.removeTypes, h.resource j k hshape]

end

/-- The table of a generator in any state it gets into. -/
theorem Inv.of_reachable {g : Gen} (h : (generator D).Reachable g) : Inv D g := by
  refine h.invariant (fun g hg => ?_) fun g c g' hinv hallowed hexec => ?_
  · cases hg
    exact inv_initial
  cases c with
  | define live => exact hinv.defineLiveTypes [] nofun hallowed hexec
  | remove keep =>
    cases hexec
    exact hinv.removeTypes hallowed

end WitBindgen.C
