import WitBindgen.Types.Equality

/-!
# The classes the scan ends with

A type joins the class of its shape when it may alias another type or comes
first among the live types of its shape; every other type stays alone. This is
the invariant of the outer loop, from which soundness and completeness of the
partition are read off.
-/

namespace WitBindgen

variable (r : Resolve) (mayAlias : TypeId → Bool)

/-- No type before `x` has its shape. -/
def FirstOfShape (live : List TypeId) (x : TypeId) : Prop :=
  ∀ w ∈ live.takeWhile (· ≠ x), r.shape (.id w) ≠ r.shape (.id x)

/-- `x` shares a class with the other types of its shape that do. -/
def Joins (live : List TypeId) (x : TypeId) : Prop := mayAlias x = true ∨ FirstOfShape r live x

/-- The classes after the types in `live` were scanned. -/
def ScannedTo (live : List TypeId) (u : UnionFind TypeId) : Prop :=
  ∀ x y, u.Same x y ↔ x = y ∨ (x ∈ live ∧ y ∈ live ∧ r.shape (.id x) = r.shape (.id y) ∧
    Joins r mayAlias live x ∧ Joins r mayAlias live y)

variable {r mayAlias}

theorem takeWhile_append_of_mem {l : List TypeId} {x : TypeId} (h : x ∈ l) (l' : List TypeId) :
    (l ++ l').takeWhile (· ≠ x) = l.takeWhile (· ≠ x) := by
  induction l with
  | nil => cases h
  | cons y l ih =>
    by_cases hy : y = x
    · simp [hy]
    · have hx : x ∈ l := by simpa [Ne.symm hy] using h
      simpa [hy] using ih hx

theorem takeWhile_of_notMem {l : List TypeId} {x : TypeId} (h : x ∉ l) :
    (l ++ [x]).takeWhile (· ≠ x) = l := by
  induction l with
  | nil => simp
  | cons y l ih =>
    obtain ⟨hy, hl⟩ := not_or.mp (List.mem_cons.not.mp h)
    simpa [Ne.symm hy] using ih hl

theorem joins_append {l : List TypeId} {x : TypeId} (h : x ∈ l) (l' : List TypeId) :
    Joins r mayAlias (l ++ l') x ↔ Joins r mayAlias l x := by
  rw [Joins, Joins, FirstOfShape, FirstOfShape, takeWhile_append_of_mem h]

theorem firstOfShape_last {l : List TypeId} {x : TypeId} (h : x ∉ l) :
    FirstOfShape r (l ++ [x]) x ↔ ∀ w ∈ l, r.shape (.id w) ≠ r.shape (.id x) := by
  rw [FirstOfShape, takeWhile_of_notMem h]

theorem firstOfShape_split {l₁ l₂ : List TypeId} {e : TypeId}
    (h : ∀ w ∈ l₁, r.shape (.id w) ≠ r.shape (.id e)) : FirstOfShape r (l₁ ++ e :: l₂) e := by
  intro w hw
  have hsub : ∀ l : List TypeId, w ∈ (l ++ e :: l₂).takeWhile (· ≠ e) → w ∈ l := by
    intro l
    induction l with
    | nil => simp
    | cons y l ih =>
      by_cases hy : y = e
      · simp [hy]
      · simp only [List.cons_append, List.takeWhile_cons, hy, ne_eq, not_false_eq_true,
          decide_true, if_true, List.mem_cons]
        exact Or.imp_right ih
  exact h w (hsub l₁ hw)

/-! ## The inner loop -/

/-- The classes found so far hold types of one shape only. -/
def Sound (r : Resolve) (u : UnionFind TypeId) : Prop :=
  ∀ a b, u.Same a b → r.shape (.id a) = r.shape (.id b)

theorem ScannedTo.sound {live : List TypeId} {u : UnionFind TypeId}
    (h : ScannedTo r mayAlias live u) : Sound r u := by
  intro a b hab
  rcases (h a b).mp hab with rfl | ⟨-, -, hshape, -, -⟩
  · rfl
  · exact hshape

/-- One turn: two lookups, then the comparison. -/
theorem joinFirstEqual_step {u : UnionFind TypeId} (hu : Sound r u) (ty earlier : TypeId)
    (rest : List TypeId) (hne : ¬ u.Same ty earlier) :
    ∃ v : UnionFind TypeId, (∀ x, v.root x = u.root x) ∧
      ((r.shape (.id ty) = r.shape (.id earlier) ∧
        joinFirstEqual r ty (earlier :: rest) u = some ((), v.union ty earlier)) ∨
      (r.shape (.id ty) ≠ r.shape (.id earlier) ∧
        joinFirstEqual r ty (earlier :: rest) u = joinFirstEqual r ty rest v)) := by
  obtain ⟨w, hw⟩ : ∃ w, w = ((u.find ty).1.2.find earlier).1.2 := ⟨_, rfl⟩
  have hroots : ∀ x, w.root x = u.root x := fun x => by simp [hw]
  have hsound : Sound r w := fun a b hab => hu a b (by rwa [UnionFind.Same, hroots, hroots] at hab)
  have hre : ((u.find ty).1.2.find earlier).1.1 = u.root earlier := u.root_find ty earlier
  have hrun : joinFirstEqual r ty (earlier :: rest) u =
      (isStructurallyEqual r (equalityDepth r ty earlier) ty earlier >>= fun b =>
        if b then union ty earlier else joinFirstEqual r ty rest) w := by
    show (if u.root ty = ((u.find ty).1.2.find earlier).1.1 then joinFirstEqual r ty rest else
      isStructurallyEqual r (equalityDepth r ty earlier) ty earlier >>= fun b =>
        if b then union ty earlier else joinFirstEqual r ty rest) _ = _
    rw [hre, if_neg (show ¬ u.root ty = u.root earlier from hne), hw]
  obtain ⟨b, v, hcmp, hb, hroots'⟩ :=
    (equal_decides (r := r) _).1 ty earlier (Nat.le_refl _) w hsound
  have hbind : joinFirstEqual r ty (earlier :: rest) u =
      (if b then union ty earlier else joinFirstEqual r ty rest) v := by
    rw [hrun]
    show (isStructurallyEqual r (equalityDepth r ty earlier) ty earlier w >>= fun p =>
      (if p.1 then union ty earlier else joinFirstEqual r ty rest) p.2) = _
    rw [equalityDepth, hcmp]
    rfl
  refine ⟨v, fun x => (hroots' x).trans (hroots x), ?_⟩
  cases b with
  | true => exact Or.inl ⟨hb.mp rfl, hbind⟩
  | false => exact Or.inr ⟨fun h => Bool.noConfusion (hb.mpr h), hbind⟩

/-- The inner loop joins `ty` with the first type of its shape, if there is one. -/
theorem joinFirstEqual_run {u : UnionFind TypeId} (hu : Sound r u) (ty : TypeId)
    (es : List TypeId) (hne : ∀ e ∈ es, ¬ u.Same ty e) :
    ∃ u', joinFirstEqual r ty es u = some ((), u') ∧
      (((∀ e ∈ es, r.shape (.id e) ≠ r.shape (.id ty)) ∧ ∀ x y, u'.Same x y ↔ u.Same x y) ∨
      ∃ l₁ e l₂, es = l₁ ++ e :: l₂ ∧ (∀ w ∈ l₁, r.shape (.id w) ≠ r.shape (.id ty)) ∧
        r.shape (.id e) = r.shape (.id ty) ∧ ∀ x y, u'.Same x y ↔ (u.union ty e).Same x y) := by
  induction es generalizing u with
  | nil => exact ⟨u, rfl, Or.inl ⟨by simp, fun _ _ => Iff.rfl⟩⟩
  | cons e es ih =>
    obtain ⟨v, hroots, hstep⟩ := joinFirstEqual_step hu ty e es (hne e List.mem_cons_self)
    have hsame : ∀ x y, v.Same x y ↔ u.Same x y := fun x y => by
      rw [UnionFind.Same, UnionFind.Same, hroots, hroots]
    have hunion : ∀ a x y, (v.union ty a).Same x y ↔ (u.union ty a).Same x y := fun a x y => by
      simp only [UnionFind.same_union, hsame]
    rcases hstep with ⟨hshape, hrun⟩ | ⟨hshape, hrun⟩
    · exact ⟨_, hrun, Or.inr ⟨[], e, es, rfl, by simp, hshape.symm, hunion e⟩⟩
    · have hv : Sound r v := fun a b hab => hu a b ((hsame a b).mp hab)
      obtain ⟨u', hrest, hcase⟩ := ih hv fun e' he' => by
        rw [hsame]; exact hne e' (List.mem_cons_of_mem _ he')
      refine ⟨u', hrun.trans hrest, ?_⟩
      rcases hcase with ⟨hall, hsame'⟩ | ⟨l₁, e', l₂, rfl, hall, heq, hsame'⟩
      · refine Or.inl ⟨fun w hw => ?_, fun x y => (hsame' x y).trans (hsame x y)⟩
        rcases List.mem_cons.mp hw with rfl | hw
        · exact Ne.symm hshape
        · exact hall w hw
      · refine Or.inr ⟨e :: l₁, e', l₂, rfl, fun w hw => ?_, heq,
          fun x y => (hsame' x y).trans (hunion e' x y)⟩
        rcases List.mem_cons.mp hw with rfl | hw
        · exact Ne.symm hshape
        · exact hall w hw

/-! ## The outer loop -/

/-- A type that keeps out of every class: nothing changes. -/
theorem ScannedTo.skip {done : List TypeId} {u : UnionFind TypeId} {ty : TypeId}
    (h : ScannedTo r mayAlias done u) (hty : ty ∉ done)
    (hout : Joins r mayAlias (done ++ [ty]) ty → ∀ w ∈ done, r.shape (.id w) ≠ r.shape (.id ty)) :
    ScannedTo r mayAlias (done ++ [ty]) u := by
  intro x y
  rw [h x y]
  constructor
  · rintro (rfl | ⟨hx, hy, hshape, hjx, hjy⟩)
    · exact Or.inl rfl
    · exact Or.inr ⟨List.mem_append_left _ hx, List.mem_append_left _ hy, hshape,
        (joins_append hx _).mpr hjx, (joins_append hy _).mpr hjy⟩
  · rintro (rfl | ⟨hx, hy, hshape, hjx, hjy⟩)
    · exact Or.inl rfl
    rcases List.mem_append.mp hx with hxd | hxt <;> rcases List.mem_append.mp hy with hyd | hyt
    · exact Or.inr ⟨hxd, hyd, hshape, (joins_append hxd _).mp hjx, (joins_append hyd _).mp hjy⟩
    · obtain rfl := List.mem_singleton.mp hyt
      exact absurd hshape (hout hjy x hxd)
    · obtain rfl := List.mem_singleton.mp hxt
      exact absurd hshape.symm (hout hjx y hyd)
    · exact Or.inl ((List.mem_singleton.mp hxt).trans (List.mem_singleton.mp hyt).symm)

/-- A type joined with the first one of its shape. -/
theorem ScannedTo.join {done : List TypeId} {u u' : UnionFind TypeId} {ty e : TypeId}
    (h : ScannedTo r mayAlias done u) (hty : ty ∉ done) (halias : mayAlias ty = true)
    (he : e ∈ done) (hfirst : FirstOfShape r done e) (hshape : r.shape (.id e) = r.shape (.id ty))
    (hu' : ∀ x y, u'.Same x y ↔ (u.union ty e).Same x y) :
    ScannedTo r mayAlias (done ++ [ty]) u' := by
  have hsameTy : ∀ x, u.Same x ty ↔ x = ty := fun x => by
    rw [h x ty]
    exact ⟨fun hx => hx.elim id fun hx => absurd hx.2.1 hty, Or.inl⟩
  have hsameE : ∀ x, u.Same x e ↔
      x ∈ done ∧ r.shape (.id x) = r.shape (.id ty) ∧ Joins r mayAlias done x := fun x => by
    rw [h x e, hshape]
    constructor
    · rintro (rfl | ⟨hx, -, hxs, hjx, -⟩)
      · exact ⟨he, hshape, Or.inr hfirst⟩
      · exact ⟨hx, hxs, hjx⟩
    · rintro ⟨hx, hxs, hjx⟩
      exact Or.inr ⟨hx, he, hxs, hjx, Or.inr hfirst⟩
  have hjoined : ∀ x, (u.Same x ty ∨ u.Same x e) ↔ x ∈ done ++ [ty] ∧
      r.shape (.id x) = r.shape (.id ty) ∧ Joins r mayAlias (done ++ [ty]) x := fun x => by
    rw [hsameTy, hsameE]
    constructor
    · rintro (rfl | ⟨hx, hxs, hjx⟩)
      · exact ⟨by simp, rfl, Or.inl halias⟩
      · exact ⟨List.mem_append_left _ hx, hxs, (joins_append hx _).mpr hjx⟩
    · rintro ⟨hx, hxs, hjx⟩
      rcases List.mem_append.mp hx with hx | hx
      · exact Or.inr ⟨hx, hxs, (joins_append hx _).mp hjx⟩
      · exact Or.inl (List.mem_singleton.mp hx)
  intro x y
  rw [hu', UnionFind.same_union, hjoined, hjoined, h x y]
  constructor
  · rintro ((rfl | ⟨hx, hy, hxy, hjx, hjy⟩) | ⟨⟨hx, hxs, hjx⟩, hy, hys, hjy⟩)
    · exact Or.inl rfl
    · exact Or.inr ⟨List.mem_append_left _ hx, List.mem_append_left _ hy, hxy,
        (joins_append hx _).mpr hjx, (joins_append hy _).mpr hjy⟩
    · exact Or.inr ⟨hx, hy, hxs.trans hys.symm, hjx, hjy⟩
  · rintro (rfl | ⟨hx, hy, hxy, hjx, hjy⟩)
    · exact Or.inl (Or.inl rfl)
    by_cases hxs : r.shape (.id x) = r.shape (.id ty)
    · exact Or.inr ⟨⟨hx, hxs, hjx⟩, hy, hxy.symm.trans hxs, hjy⟩
    · have hold : ∀ z, z ∈ done ++ [ty] → r.shape (.id z) = r.shape (.id x) → z ∈ done := by
        intro z hz hzs
        rcases List.mem_append.mp hz with hz | hz
        · exact hz
        · obtain rfl := List.mem_singleton.mp hz
          exact absurd hzs.symm hxs
      have hx' := hold x hx rfl
      have hy' := hold y hy hxy.symm
      exact Or.inl (Or.inr ⟨hx', hy', hxy, (joins_append hx' _).mp hjx,
        (joins_append hy' _).mp hjy⟩)

/-- One turn of the outer loop. -/
theorem scan_step {done : List TypeId} {u : UnionFind TypeId} {ty : TypeId}
    (h : ScannedTo r mayAlias done u) (hty : ty ∉ done) :
    ∃ u', scanType r mayAlias done ty u = some ((), u') ∧
      ScannedTo r mayAlias (done ++ [ty]) u' := by
  unfold scanType
  cases halias : mayAlias ty with
  | false =>
    refine ⟨u, rfl, h.skip hty fun hj => ?_⟩
    rcases hj with hj | hj
    · rw [halias] at hj; cases hj
    · exact (firstOfShape_last hty).mp hj
  | true =>
    have hne : ∀ e ∈ done, ¬ u.Same ty e := by
      intro e he hsame
      rcases (h ty e).mp hsame with rfl | ⟨hmem, -⟩
      · exact hty he
      · exact hty hmem
    obtain ⟨u', hrun, hcase⟩ := joinFirstEqual_run h.sound ty done hne
    refine ⟨u', hrun, ?_⟩
    rcases hcase with ⟨hall, hsame⟩ | ⟨l₁, e, l₂, hdone, hall, heq, hsame⟩
    · have hkeep : ScannedTo r mayAlias done u' := fun x y => (hsame x y).trans (h x y)
      exact hkeep.skip hty fun _ => hall
    · have hfirst : FirstOfShape r done e := by
        rw [hdone]
        exact firstOfShape_split fun w hw => heq ▸ hall w hw
      exact h.join hty halias (by rw [hdone]; simp) hfirst heq hsame

theorem collectFrom_run {done live : List TypeId} {u : UnionFind TypeId}
    (h : ScannedTo r mayAlias done u) (hnodup : (done ++ live).Nodup) :
    ∃ u', collectFrom r mayAlias done live u = some ((), u') ∧
      ScannedTo r mayAlias (done ++ live) u' := by
  induction live generalizing done u with
  | nil => exact ⟨u, rfl, by rwa [List.append_nil]⟩
  | cons ty live ih =>
    have hty : ty ∉ done := by
      intro hmem
      exact (List.nodup_append.mp hnodup).2.2 ty hmem ty List.mem_cons_self rfl
    obtain ⟨u₁, hrun, hscan⟩ := scan_step h hty
    have happ : done ++ ty :: live = done ++ [ty] ++ live := by simp
    rw [happ] at hnodup ⊢
    obtain ⟨u', hrest, hscan'⟩ := ih hscan hnodup
    refine ⟨u', ?_, hscan'⟩
    show (scanType r mayAlias done ty u >>= fun p => collectFrom r mayAlias (done ++ [ty]) live p.2) = _
    rw [hrun]
    exact hrest

variable (r mayAlias) in
/-- The scan finishes, and these are its classes. -/
theorem collectEqualTypes_run (live : List TypeId) (hnodup : live.Nodup) :
    ∃ u, collectEqualTypes r live mayAlias UnionFind.empty = some ((), u) ∧
      ScannedTo r mayAlias live u := by
  have hempty : ScannedTo r mayAlias [] UnionFind.empty := fun x y => by
    rw [UnionFind.Same, UnionFind.root_empty, UnionFind.root_empty]
    simp
  exact collectFrom_run hempty hnodup

end WitBindgen
