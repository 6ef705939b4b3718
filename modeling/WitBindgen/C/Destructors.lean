import WitBindgen.C.DtorTable

/-!
# Which destructors are complete

The typedef of a type is printed with a destructor that frees everything a value
owns, as long as nothing inside the type had its name before it: the `list<u8>` of
a second package, or the same one after `remove_types_redefined_by_exports`, keeps
the typedef it had and gets no entry in `dtor_funcs`, and a record around it is
printed without a call.
-/

namespace WitBindgen.C

variable {D : Defs} {g : Gen}

/-- A typedef is that of one structure. -/
theorem Inv.shape_eq (h : Inv D g) {i : TypeId} (hi : i ∈ g.typeNames) {e : Printed}
    (he : e ∈ g.printed) (hfor : e.For D i) : D.shape (.id e.id) = D.shape (.id i) := by
  rcases hfor with heq | ⟨hprim, hprim', hname⟩
  · rw [heq]
  · exact (h.readable e he hprim).name_inj (h.known.spelled hi hprim') hname

/-- The destructors printed for a type release all of its buffers exactly if
nothing with a buffer inside it had its name before it. -/
theorem destructors_complete_iff (h : (generator D).Reachable g) (i : TypeId)
    (hi : i ∈ g.typeNames) :
    (∀ e ∈ g.printed, e.For D i → Complete (D.shape (.id i)) e.dtor) ↔
      ∀ e ∈ g.printed, e.For D i → ∀ c, Inside D c e.id → D.repeated e.given c = true →
        ¬ Owns D c := by
  have hinv := Inv.of_reachable h
  refine forall_congr' fun e => forall_congr' fun he => forall_congr' fun hfor => ?_
  rw [← hinv.shape_eq hi he hfor]
  exact hinv.exact e he

/-- Two packages, each with an interface with a record of a `list<u8>`. -/
def twoLists : Defs where
  types
    | 0 => .list (.prim .u8)
    | 1 => .record [("x", .id 0)]
    | 2 => .list (.prim .u8)
    | 3 => .record [("y", .id 2)]
    | _ => .flags []
  rank
    | 1 | 3 => 1
    | _ => 0
  rank_lt := by
    intro i j h
    match i with
    | 0 | 2 => cases h with | tail _ h => cases h
    | 1 | 3 => cases h with | head => decide | tail _ h => cases h
    | _ + 4 => cases h
  known := by
    intro i h
    match i with
    | 0 | 1 | 2 | 3 | _ + 4 => cases h
  name
    | 1 => some "a"
    | 3 => some "b"
    | _ => none
  variants := by
    intro i cases h
    match i with
    | 0 | 1 | 2 | 3 | _ + 4 => cases h
  handles := by
    intro i k h
    match i with
    | 0 | 1 | 2 | 3 | _ + 4 => cases h

theorem twoLists_primName : twoLists.primName 0 = [.word "list", .word "u8"] ∧
    twoLists.primName 2 = [.word "list", .word "u8"] := by
  have hshape : twoLists.shape (.id 0) = .list (.prim .u8) ∧
      twoLists.shape (.id 2) = .list (.prim .u8) := ⟨rfl, rfl⟩
  simp [Defs.primName, hshape, pushTyName, primToken]

/-- The record of the second package has no destructor. -/
theorem twoLists_defined : ∃ g,
    (Gen.initial.defineLiveTypes twoLists [0, 1] >>= fun g => g.defineLiveTypes twoLists [2, 3]) =
      .ok g ∧ 3 ∈ g.typeNames ∧ ∃ e ∈ g.printed, e.id = 3 ∧ e.dtor = none := by
  have hprim : twoLists.isPrim 0 = true ∧ twoLists.isPrim 2 = true := by decide
  have hnames : (twoLists.name 0).isSome = false ∧ (twoLists.name 1).isSome = true ∧
    (twoLists.name 2).isSome = false ∧ (twoLists.name 3).isSome = true := by decide
  have h0 : twoLists.types 0 = .list (.prim .u8) := rfl
  have h1 : twoLists.types 1 = .record [("x", .id 0)] := rfl
  have h2 : twoLists.types 2 = .list (.prim .u8) := rfl
  have h3 : twoLists.types 3 = .record [("y", .id 2)] := rfl
  have hprintable : twoLists.printable 0 = true ∧ twoLists.printable 1 = true ∧
    twoLists.printable 3 = true := by decide
  have hbare : fieldsBody [none] = none := rfl
  simp [Gen.defineLiveTypes, Gen.defineType, Gen.defineDtor, Gen.initial, twoLists_primName,
    hprim, hnames, h0, h1, h2, h3, hprintable, freedTypes, TypeDefKind.components, dtorBody,
    Gen.free, hbare, bind, Except.bind]

theorem twoLists_reachable : ∃ g, (generator twoLists).Reachable g ∧ 3 ∈ g.typeNames ∧
    ∃ e ∈ g.printed, e.id = 3 ∧ e.dtor = none := by
  obtain ⟨g, hrun, hnamed, hprinted⟩ := twoLists_defined
  cases hfirst : Gen.initial.defineLiveTypes twoLists [0, 1] with
  | error p => rw [hfirst] at hrun; cases hrun
  | ok g₁ =>
    rw [hfirst] at hrun
    have hlive : Live twoLists [] [0, 1] := by simp [Live, twoLists, TypeDefKind.components]
    have hlive' : Live twoLists [] [2, 3] := by simp [Live, twoLists, TypeDefKind.components]
    exact ⟨g, .step _ _ (.define [2, 3]) (.step _ _ (.define [0, 1]) (.init _ rfl) hlive hfirst)
      hlive' hrun, hnamed, hprinted⟩

theorem destructors_complete_iff_twoLists : ∃ g, (generator twoLists).Reachable g ∧
    ((∀ e ∈ g.printed, e.For twoLists 3 → Complete (twoLists.shape (.id 3)) e.dtor) ↔
      ∀ e ∈ g.printed, e.For twoLists 3 →
        ∀ c, Inside twoLists c e.id → twoLists.repeated e.given c = true → ¬ Owns twoLists c) := by
  obtain ⟨g, hreach, hnamed, -⟩ := twoLists_reachable
  exact ⟨g, hreach, destructors_complete_iff hreach 3 hnamed⟩

/-- The list in the record of the second package is never freed. -/
theorem second_list_leaks : ¬ ∀ (D : Defs) (g : Gen), (generator D).Reachable g →
    ∀ i ∈ g.typeNames, ∀ e ∈ g.printed, e.For D i → Complete (D.shape (.id i)) e.dtor := by
  intro hall
  obtain ⟨g, hreach, hnamed, e, he, hid, hnone⟩ := twoLists_reachable
  have hcomplete := hall twoLists g hreach 3 hnamed e he (Or.inl hid)
  rw [hnone, complete_none_iff] at hcomplete
  have hshape : twoLists.shape (.id 3) = .record [("y", .list (.prim .u8))] := rfl
  refine hcomplete ⟨.struct [.list (some 0) [.scalar]], ?_, by simp [CVal.buffers]⟩
  rw [hshape]
  refine .struct rfl (.cons (.list rfl fun v hv => ?_) .nil)
  rw [List.mem_singleton.mp hv]
  exact .scalar rfl

end WitBindgen.C
