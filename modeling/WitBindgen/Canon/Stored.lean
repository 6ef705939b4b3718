import WitBindgen.Canon.Memory

/-!
# Storing, loading and giving back

What `store` leaves behind: a value that `load` reads back at the same address,
whose buffers `freeMem` releases each once. The buffers are described by the
requests that storing makes, in order, and the handles by the events that
dropping them notes.
-/

namespace WitBindgen

open Heap

/-! ## What a value owns -/

/-- Collect over the fields of a record. -/
def collectFields {α : Type} (members : List (Val → List α)) (v : Val) : List α :=
  match v.asRecord members.length with
  | some vs => (members.zip vs).flatMap fun x => x.1 x.2
  | none => []

/-- Collect over the payload of the active case. -/
def collectArm {α : Type} (arms : List (Option (Val → List α))) (v : Val) : List α :=
  match v.asVariant arms with
  | some (_, some (f, x)) => f x
  | _ => []

section
variable (T : Target)

/-- The buffers that lowering a value allocates, in order, each marked with
whether deallocation gives it back. -/
def requests : Ty → Val → List Request
  | .string, v =>
    match v.asString with
    | some s => [⟨(stringBytes s).length, 1, true⟩]
    | none => []
  | .type _ t, v => requests t v
  | .list _ t, v =>
    match v.asList with
    | some vs => ⟨vs.length * T.size t, T.align t, true⟩ ::
        (vs.map fun v => requests t v).flatten
    | none => []
  | .map _ k t, v =>
    match v.asMap with
    | some es => ⟨es.length * T.entrySize k t, T.entryAlign k t, true⟩ ::
        (es.map fun e => requests k e.1 ++ requests t e.2).flatten
    | none => []
  | .fixedLengthList _ t n, v =>
    match v.asFixed n with
    | some vs => ((vs.map fun v => requests t v).flatten).map Request.keep
    | none => []
  | .record _ _ fields, v => collectFields (fields.map fun f => requests f.2) v
  | .tuple _ types, v => collectFields (types.map fun t => requests t) v
  | .variant _ _ cases, v => collectArm
      (cases.map fun c => match _h : c.2 with
        | none => none
        | some t => some (requests t)) v
  | .option _ t, v => collectArm [none, some (requests t)] v
  | .result _ ok err, v => collectArm
      [match ok with | none => none | some t => some (requests t),
       match err with | none => none | some t => some (requests t)] v
  | _, _ => []
termination_by t => sizeOf t
decreasing_by
  all_goals first
    | decreasing_tactic
    | with_reducible exact Ty.sizeOf_field ‹_›
    | with_reducible exact Ty.sizeOf_tuple ‹_›
    | with_reducible exact Ty.sizeOf_arm ‹_› ‹_›

end

def dropOf (what : Deallocate) (ty : Ty) (v : Val) : List Event :=
  match what, v.asHandle with
  | .listsAndOwn, some h => [.dropHandle ty h]
  | _, _ => []

/-- The handles a deallocation drops: the own handles, futures and streams that
are not inside a fixed-length list. -/
def drops (what : Deallocate) : Ty → Val → List Event
  | .type _ t, v => drops what t v
  | .list _ t, v =>
    match v.asList with
    | some vs => (vs.map fun v => drops what t v).flatten
    | none => []
  | .map _ k t, v =>
    match v.asMap with
    | some es => (es.map fun e => drops what k e.1 ++ drops what t e.2).flatten
    | none => []
  | .record _ _ fields, v => collectFields (fields.map fun f => drops what f.2) v
  | .tuple _ types, v => collectFields (types.map fun t => drops what t) v
  | .variant _ _ cases, v => collectArm
      (cases.map fun c => match _h : c.2 with
        | none => none
        | some t => some (drops what t)) v
  | .option _ t, v => collectArm [none, some (drops what t)] v
  | .result _ ok err, v => collectArm
      [match ok with | none => none | some t => some (drops what t),
       match err with | none => none | some t => some (drops what t)] v
  | .handle id (.own r) name, v => dropOf what (.handle id (.own r) name) v
  | .future id t, v => dropOf what (.future id t) v
  | .stream id t, v => dropOf what (.stream id t) v
  | _, _ => []
termination_by t => sizeOf t
decreasing_by
  all_goals first
    | decreasing_tactic
    | with_reducible exact Ty.sizeOf_field ‹_›
    | with_reducible exact Ty.sizeOf_tuple ‹_›
    | with_reducible exact Ty.sizeOf_arm ‹_› ‹_›

section
variable {T : Target} {what : Deallocate} {ty : Ty}

theorem requests_fields {types : List Ty} (h : ty.fieldTypes = some types) (v : Val) :
    requests T ty v = collectFields (types.map (requests T)) v := by
  cases h using Ty.fields_cases with
  | record id name fields =>
    rw [requests, List.map_map]
    rfl
  | tuple id types' =>
    rw [requests]

theorem requests_arms {arms : List (Option Ty)} (h : ty.arms = some arms) (v : Val) :
    requests T ty v = collectArm (arms.map fun o => o.map (requests T)) v := by
  cases h using Ty.arms_cases with
  | variant id name cases =>
    rw [requests]
    congr 1
    exact Ty.map_cases ..
  | option id t =>
    rw [requests]
    rfl
  | result id ok err =>
    cases ok <;> cases err <;> · rw [requests]; rfl

theorem drops_fields {types : List Ty} (h : ty.fieldTypes = some types) (v : Val) :
    drops what ty v = collectFields (types.map (drops what)) v := by
  cases h using Ty.fields_cases with
  | record id name fields =>
    rw [drops, List.map_map]
    rfl
  | tuple id types' =>
    rw [drops]

theorem drops_arms {arms : List (Option Ty)} (h : ty.arms = some arms) (v : Val) :
    drops what ty v = collectArm (arms.map fun o => o.map (drops what)) v := by
  cases h using Ty.arms_cases with
  | variant id name cases =>
    rw [drops]
    congr 1
    exact Ty.map_cases ..
  | option id t =>
    rw [drops]
    rfl
  | result id ok err =>
    cases ok <;> cases err <;> · rw [drops]; rfl

end

/-! ## The shape of values of a type -/

theorem Val.asVariant_map {α β : Type} (g : α → β) (arms : List (Option α)) (v : Val) :
    v.asVariant (arms.map fun o => o.map g) =
      (v.asVariant arms).map fun x => (x.1, x.2.map fun y => (g y.1, y.2)) := by
  cases v with
  | variant i payload =>
    simp only [Val.asVariant, List.getElem?_map]
    cases arms[i]? with
    | none => rfl
    | some o => cases o <;> cases payload <;> rfl
  | _ => rfl

theorem Fits.fieldValues {ty : Ty} {types : List Ty} {v : Val} (h : Fits v ty)
    (hf : ty.fieldTypes = some types) : ∃ vs, v = .record vs ∧ vs.length = types.length ∧
      ∀ x ∈ types.zip vs, Fits x.2 x.1 := by
  cases h with
  | fields h' hlen hfits => cases h'.symm.trans hf; exact ⟨_, rfl, hlen, hfits⟩
  | armNone h' | armSome h' => simp [Ty.arms_of_fields hf] at h'
  | _ => cases hf

/-- A value of a type with cases: its case, and a payload if the case has one. -/
theorem Fits.armValue {ty : Ty} {arms : List (Option Ty)} {v : Val} (h : Fits v ty)
    (ha : ty.arms = some arms) : ∃ i, i < arms.length ∧
      ((arms[i]? = some none ∧ v = .variant i none ∧ v.asVariant arms = some (i, none)) ∨
       ∃ t x, some t ∈ arms ∧ arms[i]? = some (some t) ∧ Fits x t ∧
         v = .variant i (some x) ∧ v.asVariant arms = some (i, some (t, x))) := by
  cases h with
  | fields h' => simp [Ty.arms_of_fields h'] at ha
  | @armNone _ _ i h' hi =>
    cases h'.symm.trans ha
    obtain ⟨hlt, -⟩ := List.getElem?_eq_some_iff.mp hi
    exact ⟨i, hlt, Or.inl ⟨hi, rfl, by simp [Val.asVariant, hi]⟩⟩
  | @armSome _ _ i t x h' hi hx =>
    cases h'.symm.trans ha
    obtain ⟨hlt, -⟩ := List.getElem?_eq_some_iff.mp hi
    exact ⟨i, hlt, Or.inr ⟨t, x, List.mem_of_getElem? hi, hi, hx, rfl,
      by simp [Val.asVariant, hi]⟩⟩
  | _ => cases ha

/-! ## Constructions shared by the cases -/

section
variable {T : Target} {α : Type} {a : Nat}

theorem forM_eq_mapM {ι : Type} (xs : List ι) (f : ι → Exec Event Unit) :
    xs.forM f = (fun _ => ()) <$> xs.mapM f := by
  induction xs with
  | nil => simp
  | cons x xs ih => simp_all [List.forM_cons, List.mapM_cons]

/-- Values in consecutive slots. -/
theorem realizes_slots (size : Nat) (vs : List α) (req : α → List Request)
    (store : α → Nat → Exec Event Unit) (load : Nat → Exec Event α)
    (free : Deallocate → Nat → Exec Event Unit) (evs : α → Deallocate → List Event)
    (h : ∀ v ∈ vs, ∀ a, Realizes T.A a size (req v) (store v a) fun _ news w =>
      Held (load a) (free · a) v (req v) (evs v) news w) :
    Realizes T.A a (vs.length * size) (vs.map req).flatten
      (((slots a size vs.length).zip vs).forM fun x => store x.2 x.1) fun _ news w =>
      Held ((slots a size vs.length).mapM load)
        (fun what => (slots a size vs.length).forM (free what)) vs (vs.map req).flatten
        (fun what => (vs.map fun v => evs v what).flatten) news w := by
  have hfst : ((slots a size vs.length).zip vs).map Prod.fst = slots a size vs.length :=
    List.map_fst_zip (by simp)
  have hsnd : ((slots a size vs.length).zip vs).map Prod.snd = vs :=
    List.map_snd_zip (by simp)
  have hslot : ∀ x ∈ (slots a size vs.length).zip vs, a ≤ x.1 ∧
      x.1 + size ≤ a + vs.length * size := by
    rintro ⟨x, v⟩ hx
    obtain ⟨i, hi, rfl⟩ := List.mem_map.mp (List.of_mem_zip hx).1
    have hlt : i + 1 ≤ vs.length := List.mem_range.mp hi
    have := Nat.mul_le_mul_right size hlt
    rw [Nat.add_mul, Nat.one_mul] at this
    exact ⟨by omega, by omega⟩
  have hsorted : ((slots a size vs.length).zip vs).Pairwise fun x y => x.1 + size ≤ y.1 := by
    rw [← List.pairwise_map (f := Prod.fst) (R := fun x y : Nat => x + size ≤ y), hfst, slots,
      List.pairwise_map]
    refine List.pairwise_lt_range.imp fun {i j} hij => ?_
    have := Nat.mul_le_mul_right size (Nat.succ_le_of_lt hij)
    rw [Nat.succ_mul] at this
    omega
  have heach := Realizes.each (A := T.A) (a := a) (k := vs.length * size)
    ((slots a size vs.length).zip vs) (fun x => x.1) (fun _ => size) (fun x => req x.2)
    (fun x => store x.2 x.1) (fun x _ => load x.1) (fun x _ what => free what x.1)
    (fun x => x.2) (fun x => evs x.2) (fun _ _ => True)
    (fun x hx => (h x.2 (List.of_mem_zip hx).2 x.1).mono fun _ _ _ _ hobs => ⟨trivial, hobs⟩)
    hslot hsorted
  have hreq : ((slots a size vs.length).zip vs).map (fun x => req x.2) = vs.map req := by
    conv_rhs => rw [← hsnd, List.map_map]
    rfl
  rw [hreq] at heach
  rw [forM_eq_mapM]
  refine heach.map fun us news w _ hus => ?_
  obtain ⟨hlen, hheld⟩ := hus
  have hzip : (((slots a size vs.length).zip vs).zip us).map (fun x => x.1.1) =
      slots a size vs.length := by
    have hpairs : (((slots a size vs.length).zip vs).zip us).map Prod.fst =
        (slots a size vs.length).zip vs := List.map_fst_zip (by rw [hlen.length_eq])
    conv_rhs => rw [← hfst, ← hpairs, List.map_map]
    rfl
  refine ⟨?_, fun what => ?_⟩
  · have hread := hheld.read
    rw [hsnd] at hread
    rw [← hzip, List.mapM_map]
    exact hread
  · obtain ⟨order, hrun, hperm⟩ := hheld.free what
    refine ⟨order, ?_, hperm⟩
    have hevs : (((slots a size vs.length).zip vs).map fun i => evs i.2 what) =
        vs.map fun v => evs v what := by
      conv_rhs => rw [← hsnd, List.map_map]
      rfl
    rw [hevs] at hrun
    rw [← hzip]
    simpa [List.forM_map] using hrun

/-- A buffer of values, with its pointer and its length. -/
theorem realizes_buffer (size align : Nat) (vs : List α) (req : α → List Request)
    (store : α → Nat → Exec Event Unit) (load : Nat → Exec Event α)
    (free : Deallocate → Nat → Exec Event Unit) (evs : α → Deallocate → List Event)
    (h : ∀ v ∈ vs, ∀ a, Realizes T.A a size (req v) (store v a) fun _ news w =>
      Held (load a) (free · a) v (req v) (evs v) news w) :
    Realizes T.A a 0 (⟨vs.length * size, align, true⟩ :: (vs.map req).flatten)
      (lowerBuffer T size align (vs.map store)) fun x news w =>
      (x.1 < 256 ^ T.p ∧ x.2 < 256 ^ T.p) ∧
      Held (loadBuffer size load x) (fun what => freeBuffer size align (free what) x) vs
        (⟨vs.length * size, align, true⟩ :: (vs.map req).flatten)
        (fun what => (vs.map fun v => evs v what).flatten) news w := by
  unfold lowerBuffer
  rw [List.length_map]
  split
  · next hlen =>
      have hfill : ∀ ptr, Realizes T.A ptr (vs.length * size) (vs.map req).flatten
          (do ((slots ptr size vs.length).zip (vs.map store)).forM fun x => x.2 x.1
              pure (ptr, vs.length)) fun x news w => x = (ptr, vs.length) ∧
          Held ((slots ptr size vs.length).mapM load)
            (fun what => (slots ptr size vs.length).forM (free what)) vs (vs.map req).flatten
            (fun what => (vs.map fun v => evs v what).flatten) news w := by
        intro ptr
        have hslots : Realizes T.A ptr (vs.length * size) (vs.map req).flatten
            ((fun _ => (ptr, vs.length)) <$>
              ((slots ptr size vs.length).zip vs).forM fun x => store x.2 x.1)
            fun x news w => x = (ptr, vs.length) ∧
              Held ((slots ptr size vs.length).mapM load)
                (fun what => (slots ptr size vs.length).forM (free what)) vs
                (vs.map req).flatten (fun what => (vs.map fun v => evs v what).flatten) news w :=
          (realizes_slots size vs req store load free evs h).map fun _ news w _ hobs => ⟨rfl, hobs⟩
        rw [map_eq_pure_bind] at hslots
        simpa [List.zip_map_right, List.forM_map, Prod.map] using hslots
      refine (Realizes.buffer true fun ptr _ => hfill ptr).mono ?_
      rintro x news w - ⟨ptr, n, hptr, rfl, hn, ⟨rfl, hheld⟩, hnot, hlive⟩
      refine ⟨⟨hptr, hlen⟩, hheld.read, fun what => ?_⟩
      obtain ⟨order, hrun, hperm⟩ := hheld.free what
      have hstill : (⟨ptr, vs.length * size, align⟩ : Block) ∈
          (w.after order ((vs.map fun v => evs v what).flatten)).live := by
        simp only [World.after, Finset.mem_sdiff, List.mem_toFinset]
        exact ⟨hlive, fun hmem => hnot (releasedOf_subset _ _ (hperm.subset hmem))⟩
      refine ⟨order ++ [⟨ptr, vs.length * size, align⟩], ?_, ?_⟩
      · rw [freeBuffer, run_bind_ok hrun, release_after hstill, World.after_after,
          List.append_nil]
      · have hcons : releasedOf (⟨vs.length * size, align, true⟩ :: (vs.map req).flatten)
            (⟨ptr, vs.length * size, align⟩ :: n) =
            ⟨ptr, vs.length * size, align⟩ :: releasedOf (vs.map req).flatten n := by
          simp [releasedOf]
        rw [hcons]
        exact (List.perm_append_singleton _ _).trans (hperm.cons _)
  · exact Realizes.oom

/-- The buffer of a string. -/
theorem realizes_string (s : String) :
    Realizes T.A a 0 [⟨(stringBytes s).length, 1, true⟩] (lowerString T s) fun x news w =>
      (x.1 < 256 ^ T.p ∧ x.2 < 256 ^ T.p) ∧
      Held (liftString x) (fun _ : Deallocate => release ⟨x.1, x.2, 1⟩) (.string s)
        [⟨(stringBytes s).length, 1, true⟩] (fun _ => []) news w := by
  unfold lowerString
  split
  · next hlen =>
      have hfill : ∀ ptr, Realizes (ε := Event) T.A ptr (stringBytes s).length []
          (do storeBytes ptr (stringBytes s); pure (ptr, (stringBytes s).length))
          fun x news w => x = (ptr, (stringBytes s).length) ∧ news = [] ∧
            loadBytes ptr (stringBytes s).length w = .ok (stringBytes s, w) := by
        intro ptr
        have hbytes : Realizes (ε := Event) T.A ptr (stringBytes s).length []
            ((fun _ => (ptr, (stringBytes s).length)) <$> storeBytes ptr (stringBytes s))
            fun x news w => x = (ptr, (stringBytes s).length) ∧ news = [] ∧
              loadBytes ptr (stringBytes s).length w = .ok (stringBytes s, w) :=
          (Realizes.bytes (stringBytes s)).map fun _ news w _ hobs => ⟨rfl, hobs⟩
        rwa [map_eq_pure_bind] at hbytes
      refine (Realizes.buffer true fun ptr _ => hfill ptr).mono ?_
      rintro x news w - ⟨ptr, n, hptr, rfl, -, ⟨rfl, rfl, hread⟩, -, hlive⟩
      refine ⟨⟨hptr, hlen⟩, ?_, fun what => ⟨_, release_after hlive, ?_⟩⟩
      · rw [liftString, run_bind_ok hread, bytesString_stringBytes]
        rfl
      · simp [releasedOf]
  · exact Realizes.oom

/-- A pointer and a length in memory. -/
theorem realizes_pair {x : Nat × Nat} (hx : x.1 < 256 ^ T.p ∧ x.2 < 256 ^ T.p) :
    Realizes T.A a (2 * T.p) [] (storePair T a x) fun _ news w =>
      news = [] ∧ loadPair T a w = .ok (x, w) := by
  have hbind := Realizes.bind (A := T.A) (a := a) (k := 2 * T.p)
    (Realizes.nat (ε := Event) (a := a + T.p) (k := T.p) x.2)
    (fun _ _ => Realizes.nat (a := a) (k := T.p) x.1)
    (Or.inr ⟨by omega, by omega⟩) (Or.inr ⟨by omega, by omega⟩) (Or.inr (Nat.le_refl _))
  refine hbind.mono ?_
  rintro _ news w - ⟨-, n₁, n₂, rfl, -, -, ⟨rfl, hlen⟩, hafter⟩
  obtain ⟨rfl, hptr⟩ := hafter [] [] (by simp)
  rw [World.after_nil, Nat.mod_eq_of_lt hx.1] at hptr
  rw [Nat.mod_eq_of_lt hx.2] at hlen
  refine ⟨rfl, ?_⟩
  rw [loadPair, run_bind_ok hptr, run_bind_ok hlen]
  rfl

/-- What is held through a pair is held through the place that stores it. -/
theorem realizes_stored_pair {make : Exec Event (Nat × Nat)} {reqs : List Request}
    (load : Nat × Nat → Exec Event α) {free : Deallocate → Nat × Nat → Exec Event Unit}
    {v : α} {evs : Deallocate → List Event}
    (h : Realizes T.A a 0 reqs make fun x news w => (x.1 < 256 ^ T.p ∧ x.2 < 256 ^ T.p) ∧
      Held (load x) (free · x) v reqs evs news w) :
    Realizes T.A a (2 * T.p) reqs (make >>= storePair T a) fun _ news w =>
      Held (loadPair T a >>= load) (fun what => loadPair T a >>= free what) v reqs evs
        news w := by
  have hbind := Realizes.bind (a := a) (k := 2 * T.p) h
    (fun x hx => realizes_pair (T := T) (a := a) hx.choose_spec.choose_spec.1)
    Inside.empty (Inside.refl _ _) (Or.inl (Nat.le_refl _))
  rw [List.append_nil] at hbind
  refine hbind.mono ?_
  rintro _ news w - ⟨x, n₁, n₂, rfl, -, -, ⟨-, hheld⟩, hafter⟩
  obtain ⟨rfl, hpair⟩ := hafter [] [] (by simp)
  rw [World.after_nil] at hpair
  rw [List.append_nil]
  refine ⟨by rw [run_bind_ok hpair, hheld.read], fun what => ?_⟩
  obtain ⟨order, hrun, hperm⟩ := hheld.free what
  exact ⟨order, by rw [run_bind_ok hpair, hrun], hperm⟩

/-- Words, stored from the last to the first and loaded in order. -/
theorem realizes_words {k : Nat} (ws : List Nat) (h : ∀ w ∈ ws, w < 256 ^ k) :
    Realizes (ε := Event) T.A a (k * ws.length) [] (storeWords k ws a) fun _ news w =>
      news = [] ∧ loadWords k ws.length a w = .ok (ws, w) := by
  induction ws generalizing a with
  | nil => exact (Realizes.pure ()).mono fun _ news w _ hobs => ⟨hobs.2, rfl⟩
  | cons n ns ih =>
    have hlen : k * (n :: ns).length = k + k * ns.length := by
      rw [List.length_cons, Nat.mul_succ, Nat.add_comm]
    have hbind := Realizes.bind (A := T.A) (a := a) (k := k * (n :: ns).length)
      (ih (a := a + k) fun w hw => h w (List.mem_cons_of_mem _ hw))
      (fun _ _ => Realizes.nat (a := a) (k := k) n)
      (Or.inr ⟨by omega, by omega⟩) (Or.inr ⟨by omega, by omega⟩) (Or.inr (Nat.le_refl _))
    refine hbind.mono ?_
    rintro _ news w - ⟨-, n₁, n₂, rfl, -, -, ⟨rfl, hrest⟩, hafter⟩
    obtain ⟨rfl, hfirst⟩ := hafter [] [] (by simp)
    rw [World.after_nil, Nat.mod_eq_of_lt (h n List.mem_cons_self)] at hfirst
    refine ⟨rfl, ?_⟩
    rw [List.length_cons, loadWords, run_bind_ok hfirst, run_bind_ok hrest]
    rfl

end

/-! ## Fields -/

section
variable {T : Target}

theorem fieldOffsets_map (hT : T.W.Lawful T.p) (types : List Ty) {α : Type} (g : Ty → α) :
    types.map g = (T.W.fieldOffsets types).map fun f => g f.2 := by
  conv_lhs => rw [← hT.fieldOffsets_types types, List.map_map]
  rfl

/-- The fields in memory order, each at its offset. -/
theorem storeFields_eq (hT : T.W.Lawful T.p) (types : List Ty)
    (g : Ty → Val → Nat → Exec Event Unit) (v : Val) (a : Nat) :
    storeFields T (types.map fun t => (t, g t)) v a = (do
      let vs ← require (v.asRecord types.length)
      ((T.W.fieldOffsets types).zip vs).forM fun x => g x.1.2 x.2 (a + x.1.1.eval T.p)) := by
  have hids : (types.map fun t => (t, g t)).map (·.1) = types := by
    rw [List.map_map]; exact List.map_id _
  unfold storeFields
  rw [List.length_map, hids]
  congr 1
  funext vs
  rw [fieldOffsets_map hT types, Target.fieldAddrs, List.zip_map', List.zip_map_left]
  simp [List.forM_map]

theorem loadFields_eq (hT : T.W.Lawful T.p) (types : List Ty)
    (g : Ty → Nat → Exec Event Val) (a : Nat) :
    loadFields T (types.map fun t => (t, g t)) a = (do
      let vs ← (T.W.fieldOffsets types).mapM fun f => g f.2 (a + f.1.eval T.p)
      pure (.record vs)) := by
  have hids : (types.map fun t => (t, g t)).map (·.1) = types := by
    rw [List.map_map]; exact List.map_id _
  unfold loadFields
  rw [hids, fieldOffsets_map hT types, Target.fieldAddrs, List.zip_map', List.mapM_map]
  rfl

theorem freeFields_eq (hT : T.W.Lawful T.p) (types : List Ty)
    (g : Ty → Nat → Exec Event Unit) (a : Nat) :
    freeFields T (types.map fun t => (t, g t)) a =
      (T.W.fieldOffsets types).forM fun f => g f.2 (a + f.1.eval T.p) := by
  have hids : (types.map fun t => (t, g t)).map (·.1) = types := by
    rw [List.map_map]; exact List.map_id _
  unfold freeFields
  rw [hids, fieldOffsets_map hT types, Target.fieldAddrs, List.zip_map']
  simp [List.forM_map]

theorem collectFields_record {α : Type} {types : List Ty} {vs : List Val}
    (h : vs.length = types.length) (g : Ty → Val → List α) :
    collectFields (types.map g) (.record vs) =
      ((types.zip vs).map fun x => g x.1 x.2).flatten := by
  simp only [collectFields, Val.asRecord, List.length_map, h, if_true, List.zip_map_left,
    List.flatMap, List.map_map]
  rfl

/-! ## Stored values -/

/-- The value `v` of type `t` can be stored anywhere, and is then held there. -/
def Stored (T : Target) (t : Ty) (v : Val) : Prop :=
  ∀ a, Realizes T.A a (T.size t) (requests T t v) (store T t v a) fun _ news w =>
    Held (load T t a) (fun what => freeMem T what t a) v (requests T t v)
      (fun what => drops what t v) news w

theorem realizes_fields (hT : T.W.Lawful T.p) {types : List Ty} {vs : List Val} {a : Nat}
    (hlen : vs.length = types.length) (h : ∀ x ∈ types.zip vs, Stored T x.1 x.2) :
    Realizes T.A a ((T.W.record types).size.eval T.p)
      ((types.zip vs).map fun x => requests T x.1 x.2).flatten
      (((T.W.fieldOffsets types).zip vs).forM fun x =>
        store T x.1.2 x.2 (a + x.1.1.eval T.p)) fun _ news w =>
      Held ((T.W.fieldOffsets types).mapM fun f => load T f.2 (a + f.1.eval T.p))
        (fun what => (T.W.fieldOffsets types).forM fun f =>
          freeMem T what f.2 (a + f.1.eval T.p)) vs
        ((types.zip vs).map fun x => requests T x.1 x.2).flatten
        (fun what => ((types.zip vs).map fun x => drops what x.1 x.2).flatten) news w := by
  have htypes := hT.fieldOffsets_types types
  have hlenFo : (T.W.fieldOffsets types).length = vs.length := by
    rw [hlen]; conv_rhs => rw [← htypes, List.length_map]
  have hzip : types.zip vs = ((T.W.fieldOffsets types).zip vs).map fun x => (x.1.2, x.2) := by
    conv_lhs => rw [← htypes, List.zip_map_left]
    rfl
  have hfst : ((T.W.fieldOffsets types).zip vs).map (·.1) = T.W.fieldOffsets types :=
    List.map_fst_zip (by rw [hlenFo])
  have hsnd : ((T.W.fieldOffsets types).zip vs).map (·.2) = vs :=
    List.map_snd_zip (by rw [hlenFo])
  have heach := Realizes.each (A := T.A) (a := a) (k := (T.W.record types).size.eval T.p)
    ((T.W.fieldOffsets types).zip vs) (fun x => a + x.1.1.eval T.p)
    (fun x => T.size x.1.2) (fun x => requests T x.1.2 x.2)
    (fun x => store T x.1.2 x.2 (a + x.1.1.eval T.p))
    (fun x _ => load T x.1.2 (a + x.1.1.eval T.p))
    (fun x _ what => freeMem T what x.1.2 (a + x.1.1.eval T.p)) (fun x => x.2)
    (fun x what => drops what x.1.2 x.2) (fun _ _ => True)
    (fun x hx => by
      have hx' : (x.1.2, x.2) ∈ types.zip vs := by
        rw [hzip]; exact List.mem_map.mpr ⟨x, hx, rfl⟩
      exact (h _ hx' _).mono fun _ _ _ _ hobs => ⟨trivial, hobs⟩)
    (fun x hx => by
      have := hT.fieldOffsets_within types x.1 (List.of_mem_zip hx).1
      rw [← Target.size] at this
      exact ⟨by omega, by omega⟩)
    (by
      have hpair : ((T.W.fieldOffsets types).zip vs).Pairwise fun x y =>
          x.1.1.eval T.p + (T.W.size x.1.2).eval T.p ≤ y.1.1.eval T.p := by
        rw [← List.pairwise_map (f := Prod.fst) (R := fun x y : ArchitectureSize × Ty =>
          x.1.eval T.p + (T.W.size x.2).eval T.p ≤ y.1.eval T.p), hfst]
        exact hT.fieldOffsets_apart types
      refine hpair.imp fun {x y} hxy => ?_
      rw [← Target.size] at hxy
      omega)
  rw [hzip, List.map_map, forM_eq_mapM]
  refine heach.map fun us news w _ hobs => ?_
  obtain ⟨hus, hheld⟩ := hobs
  have hread : (((T.W.fieldOffsets types).zip vs).zip us).map (fun x => x.1.1) =
      T.W.fieldOffsets types := by
    have hpairs : (((T.W.fieldOffsets types).zip vs).zip us).map Prod.fst =
        (T.W.fieldOffsets types).zip vs := List.map_fst_zip (by rw [hus.length_eq])
    conv_rhs => rw [← hfst, ← hpairs, List.map_map]
    rfl
  refine ⟨?_, fun what => ?_⟩
  · have := hheld.read
    rw [hsnd] at this
    rw [← hread, List.mapM_map]
    exact this
  · obtain ⟨order, hrun, hperm⟩ := hheld.free what
    rw [List.map_map]
    refine ⟨order, Eq.trans ?_ hrun, hperm⟩
    conv_lhs => rw [← hread]
    simp [List.forM_map]

/-! ## What owns nothing -/

/-- A type that owns nothing makes no request that is given back, and drops nothing. -/
theorem not_owns {what : Deallocate} {ty : Ty} (h : ty.owns what = false) (v : Val) :
    (∀ r ∈ requests T ty v, r.released = false) ∧ drops what ty v = [] := by
  induction ty using Ty.ind generalizing v with
  | prim p => simp [requests, drops]
  | string => simp [Ty.owns] at h
  | errorContext => simp [Ty.owns] at h
  | type id t ih => simpa [requests, drops] using ih (by simpa [Ty.owns] using h) v
  | list id t ih => simp [Ty.owns] at h
  | map id k t ihk iht => simp [Ty.owns] at h
  | fixedLengthList id t n ih =>
    refine ⟨?_, by simp [drops]⟩
    rw [requests]
    cases v.asFixed n with
    | none => simp
    | some vs =>
      intro r hr
      obtain ⟨r', -, rfl⟩ := List.mem_map.mp hr
      rfl
  | fields ty types hf ih =>
    rw [Ty.owns_fields hf] at h
    have howns : ∀ t ∈ types, t.owns what = false := by simpa using h
    rw [requests_fields hf, drops_fields hf]
    unfold collectFields
    rw [List.length_map, List.length_map]
    cases v.asRecord types.length with
    | none => simp
    | some vs =>
      refine ⟨?_, ?_⟩
      · intro r hr
        obtain ⟨⟨g, x⟩, hx, hr⟩ := List.mem_flatMap.mp hr
        obtain ⟨t, ht, rfl⟩ := List.mem_map.mp (List.of_mem_zip hx).1
        exact (ih t ht (howns t ht) x).1 r hr
      · rw [List.flatMap_eq_nil_iff]
        rintro ⟨g, x⟩ hx
        obtain ⟨t, ht, rfl⟩ := List.mem_map.mp (List.of_mem_zip hx).1
        exact (ih t ht (howns t ht) x).2
  | flags id name names => simp [requests, drops]
  | arms ty arms ha ih =>
    rw [Ty.owns_arms ha] at h
    have howns : ∀ t, some t ∈ arms → t.owns what = false := by
      intro t ht
      have := List.any_eq_false.mp h (some t) ht
      simpa using this
    rw [requests_arms ha, drops_arms ha]
    unfold collectArm
    rw [Val.asVariant_map, Val.asVariant_map]
    cases hv : v.asVariant arms with
    | none => simp
    | some y =>
      obtain ⟨i, payload⟩ := y
      cases payload with
      | none => simp
      | some tx =>
        obtain ⟨t, x⟩ := tx
        have ht : some t ∈ arms := by
          cases v with
          | variant j o =>
            simp only [Val.asVariant] at hv
            split at hv
            · cases hv
            · next hj => cases hv; exact List.mem_of_getElem? hj
            · cases hv
          | _ => cases hv
        exact ih t ht (howns t ht) x
  | enum id name cases => simp [requests, drops]
  | handle id hd name =>
    cases hd with
    | own r =>
      cases what with
      | lists => simp [requests, drops, dropOf]
      | listsAndOwn => simp [Ty.owns, Deallocate.handles] at h
    | borrow r => simp [requests, drops]
  | future id t =>
    cases what with
    | lists => simp [requests, drops, dropOf]
    | listsAndOwn => simp [Ty.owns, Deallocate.handles] at h
  | stream id t =>
    cases what with
    | lists => simp [requests, drops, dropOf]
    | listsAndOwn => simp [Ty.owns, Deallocate.handles] at h
  | resource id => simp [requests, drops]
  | unknown id => simp [requests, drops]

/-- Skipping what owns nothing changes nothing. -/
theorem held_ifOwns {ty : Ty} {u : Val} {v : Val} {ld : Exec Event Val}
    {fr : Deallocate → Exec Event Unit} {news : List Block} {w : World Event}
    (h : Held ld fr u (requests T ty v) (fun what => drops what ty v) news w) :
    Held ld (fun what => ifOwns what ty (fr what)) u (requests T ty v)
      (fun what => drops what ty v) news w where
  read := h.read
  free := by
    intro what
    cases howns : ty.owns what with
    | true =>
      obtain ⟨order, hrun, hperm⟩ := h.free what
      exact ⟨order, by simp only [ifOwns, howns, if_true]; exact hrun, hperm⟩
    | false =>
      obtain ⟨hreqs, hdrops⟩ := not_owns (T := T) howns v
      refine ⟨[], ?_, by rw [releasedOf_none hreqs]⟩
      simp [ifOwns, howns, hdrops]

/-! ## Arms -/

theorem tagBytes_fits (hT : T.W.Lawful T.p) {ty : Ty} {arms : List (Option Ty)}
    (ha : ty.arms = some arms) (hlen : arms.length ≤ 2 ^ 32) :
    arms.length ≤ 256 ^ T.tagBytes ty := by
  cases ha using Ty.arms_cases with
  | variant id name cases =>
    simpa [Target.tagBytes, WitParser.armTag] using hT.tag_fits cases.length (by simpa using hlen)
  | option id t =>
    simp [Target.tagBytes, WitParser.armTag, IntRepr.bytes]
  | result id ok err =>
    simp [Target.tagBytes, WitParser.armTag, IntRepr.bytes]

theorem stored_arms (hT : T.W.Lawful T.p) {ty : Ty} {arms : List (Option Ty)} {v : Val}
    (ha : ty.arms = some arms) (hlen : arms.length ≤ 2 ^ 32) (hv : Fits v ty)
    (ih : ∀ t, some t ∈ arms → ∀ x, Fits x t → Stored T t x) : Stored T ty v := by
  intro a
  obtain ⟨i, hi, hcase⟩ := hv.armValue ha
  have htag : i < 256 ^ T.tagBytes ty := Nat.lt_of_lt_of_le hi (tagBytes_fits hT ha hlen)
  have hdisc : (disc i).bits % 256 ^ T.tagBytes ty = i := by
    rw [disc_bits (Nat.lt_of_lt_of_le hi hlen), Nat.mod_eq_of_lt htag]
  have hsize : T.tagBytes ty ≤ T.size ty := hT.size_arms ty arms ha
  have htagRun := Realizes.nat (ε := Event) (A := T.A) (a := a) (k := T.tagBytes ty) (disc i).bits
  rw [hdisc] at htagRun
  -- freeing is the same as loading up to the choice of the arm, so both cases end alike
  rcases hcase with ⟨harm, rfl, has⟩ | ⟨t, x, ht, harm, hx, rfl, has⟩
  · have hreqs : requests T ty (.variant i none) = [] := by
      rw [requests_arms ha, collectArm, Val.asVariant_map, has]; rfl
    have hevs : ∀ what, drops what ty (.variant i none) = [] := fun what => by
      rw [drops_arms ha, collectArm, Val.asVariant_map, has]; rfl
    have hstore : store T ty (.variant i none) a =
        storeNat a (T.tagBytes ty) (disc i).bits := by
      rw [store_arms ha, storeArm, Val.asVariant_map, has]
      exact bind_pure (m := Exec Event) _
    rw [hstore, hreqs]
    refine (htagRun.widen (Or.inr ⟨Nat.le_refl _, by omega⟩)).mono ?_
    rintro _ news w - ⟨rfl, hload⟩
    refine ⟨?_, fun what => ⟨[], ?_, by simp [releasedOf]⟩⟩
    · rw [load_arms ha, loadArm, run_bind_ok hload, List.getElem?_map, harm]
      rfl
    · rw [hevs, World.after_nil, freeMem_arms ha, ifOwns]
      split
      · rw [freeArm, run_bind_ok hload, List.getElem?_map, harm]
        rfl
      · rfl
  · have hreqs : requests T ty (.variant i (some x)) = requests T t x := by
      rw [requests_arms ha, collectArm, Val.asVariant_map, has]; rfl
    have hevs : ∀ what, drops what ty (.variant i (some x)) = drops what t x := fun what => by
      rw [drops_arms ha, collectArm, Val.asVariant_map, has]; rfl
    have hstore : store T ty (.variant i (some x)) a =
        (storeNat a (T.tagBytes ty) (disc i).bits >>= fun _ =>
          store T t x (a + T.payloadOffset ty arms)) := by
      rw [store_arms ha, storeArm, Val.asVariant_map, has]
      rfl
    have hafter : T.tagBytes ty ≤ T.payloadOffset ty arms := hT.payload_after_tag ty arms ha
    have hwithin : T.payloadOffset ty arms + T.size t ≤ T.size ty :=
      hT.payload_within ty arms t ha ht
    have hbind := Realizes.bind (a := a) (k := T.size ty) htagRun
      (fun _ _ => ih t ht x hx (a + T.payloadOffset ty arms))
      (Or.inr ⟨Nat.le_refl _, by omega⟩) (Or.inr ⟨by omega, by omega⟩) (Or.inl (by omega))
    rw [List.nil_append, ← hreqs, ← hstore] at hbind
    refine hbind.mono ?_
    rintro _ news w - ⟨-, n₁, n₂, rfl, -, -, ⟨rfl, hload⟩, hpay⟩
    have hheld := hpay [] [] (by simp)
    rw [World.after_nil] at hheld
    simp only [freeMem_arms ha]
    refine held_ifOwns ⟨?_, fun what => ?_⟩
    · rw [load_arms ha, loadArm, run_bind_ok hload, List.getElem?_map, harm]
      exact (run_bind_ok (f := fun x => pure (Val.variant i (some x))) hheld.read).trans rfl
    · obtain ⟨order, hrun, hperm⟩ := hheld.free what
      refine ⟨order, ?_, hperm⟩
      rw [freeArm, run_bind_ok hload, List.getElem?_map, harm, hevs]
      exact hrun

/-! ## Every value -/

theorem stored_handle {t : Ty} {a : Nat} {x : BitVec 32}
    (hsize : T.size t = 4) (hstore : ∀ v a, store T t v a = storeHandle v a)
    (hload : ∀ a, load T t a = loadHandle a) (hreqs : requests T t (.handle x) = [])
    (hfree : ∀ what w, loadHandle a w = .ok (.handle x, w) →
      freeMem T what t a w = .ok ((), w.after [] (drops what t (.handle x)))) :
    Realizes T.A a (T.size t) (requests T t (.handle x)) (store T t (.handle x) a)
      fun _ news w => Held (load T t a) (fun what => freeMem T what t a) (.handle x)
        (requests T t (.handle x)) (fun what => drops what t (.handle x)) news w := by
  rw [hsize, hreqs, hstore]
  refine (Realizes.nat (ε := Event) (A := T.A) (a := a) (k := 4) x.toNat).mono ?_
  rintro _ news w - ⟨rfl, hnat⟩
  have hmod : x.toNat % 256 ^ 4 = x.toNat := Nat.mod_eq_of_lt x.isLt
  have hread : loadHandle a w = .ok (.handle x, w) := by
    rw [loadHandle, run_bind_ok hnat, hmod, BitVec.ofNat_toNat, BitVec.setWidth_eq]
    rfl
  exact ⟨by rw [hload, hread], fun what => ⟨[], hfree what w hread, by simp [releasedOf]⟩⟩

/-- The free of a handle that is read as `x`. -/
theorem free_handle {ty : Ty} {what : Deallocate} {a : Nat} {x : BitVec 32}
    {w : World Event} (howns : ty.owns what = what.handles)
    (hread : loadHandle a w = .ok (.handle x, w)) :
    ifOwns what ty (loadHandle a >>= dropVal ty) w =
      .ok ((), w.after [] (dropOf what ty (.handle x))) := by
  rw [ifOwns, howns]
  cases what with
  | lists => simp [Deallocate.handles, dropOf]
  | listsAndOwn =>
    rw [Deallocate.handles, if_pos rfl, run_bind_ok hread]
    exact note_after w _

theorem valueOffset_spec (hT : T.W.Lawful T.p) (k t : Ty) :
    T.size k ≤ T.valueOffset k t ∧ T.valueOffset k t + T.size t ≤ T.entrySize k t := by
  have htypes := hT.fieldOffsets_types [k, t]
  have hapart := hT.fieldOffsets_apart [k, t]
  have hwithin := hT.fieldOffsets_within [k, t]
  unfold Target.valueOffset Target.entrySize Target.size
  match hfo : T.W.fieldOffsets [k, t] with
  | [] => simp [hfo] at htypes
  | [x] => simp [hfo] at htypes
  | x :: y :: z :: rest => simp [hfo] at htypes
  | [x, y] =>
    rw [hfo] at htypes hapart hwithin
    simp only [List.map_cons, List.map_nil, List.cons.injEq, and_true] at htypes
    obtain ⟨rfl, rfl⟩ := htypes
    have hx := (List.pairwise_cons.mp hapart).1 y (by simp)
    have hy := hwithin y (by simp)
    simp only [List.getElem?_cons_succ, List.getElem?_cons_zero, Option.map_some,
      Option.getD_some]
    exact ⟨by omega, hy⟩

/-- One entry of a map. -/
theorem stored_entry (hT : T.W.Lawful T.p) {k t : Ty} {e : Val × Val} {a : Nat}
    (hk : Stored T k e.1) (ht : Stored T t e.2) :
    Realizes T.A a (T.entrySize k t) (requests T k e.1 ++ requests T t e.2)
      (storeEntry (T.valueOffset k t) (store T k e.1) (store T t e.2) a) fun _ news w =>
      Held (loadEntry (T.valueOffset k t) (load T k) (load T t) a)
        (fun what => freeEntry (T.valueOffset k t) (freeMem T what k) (freeMem T what t) a) e
        (requests T k e.1 ++ requests T t e.2)
        (fun what => drops what k e.1 ++ drops what t e.2) news w := by
  obtain ⟨hkey, hvalue⟩ := valueOffset_spec hT k t
  have hbind := Realizes.bind (a := a) (k := T.entrySize k t) (hk a)
    (fun _ _ => ht (a + T.valueOffset k t))
    (Or.inr ⟨by omega, by omega⟩) (Or.inr ⟨by omega, by omega⟩) (Or.inl (by omega))
  refine hbind.mono ?_
  rintro _ news w - ⟨-, n₁, n₂, rfl, hn₁, -, hheldk, hheldt⟩
  refine ⟨?_, fun what => ?_⟩
  · have hreadt := (hheldt [] [] (by simp)).read
    rw [World.after_nil] at hreadt
    rw [loadEntry, run_bind_ok hheldk.read, run_bind_ok hreadt]
    rfl
  · obtain ⟨o, hrun, hperm⟩ := hheldk.free what
    obtain ⟨o', hrun', hperm'⟩ := (hheldt o (drops what k e.1)
      fun b hb => releasedOf_subset _ _ (hperm.subset hb)).free what
    refine ⟨o ++ o', ?_, ?_⟩
    · rw [freeEntry, run_bind_ok hrun, hrun', World.after_after]
    · rw [releasedOf_append hn₁]
      exact hperm.append hperm'

/-- Every value of a supported type can be stored, and is held where it was stored. -/
theorem stored (hT : T.W.Lawful T.p) {ty : Ty} (hs : ty.Supported) :
    ∀ v, Fits v ty → Stored T ty v := by
  induction ty using Ty.ind with
  | prim q =>
    intro v hv a
    obtain ⟨n, hn⟩ := Prim.encode_of_holds hv.of_prim
    have hreqs : requests T (.prim q) v = [] := by simp [requests]
    have hstore : store T (.prim q) v a = storeNat a q.bytes n := by rw [store, hn]; rfl
    rw [hreqs, hstore, Target.size, hT.size_prim]
    refine (Realizes.nat (ε := Event) (A := T.A) (a := a) (k := q.bytes) n).mono ?_
    rintro _ news w - ⟨rfl, hnat⟩
    refine ⟨?_, fun what => ⟨[], ?_, by simp [releasedOf]⟩⟩
    · rw [load, run_bind_ok hnat, Prim.decode_extend hn]
      rfl
    · simp [freeMem, drops]
  | string =>
    intro v hv a
    obtain ⟨s, rfl⟩ := hv.of_string
    have hstore : store T .string (.string s) a = (lowerString T s >>= storePair T a) := by
      rw [store]; rfl
    have hreqs : requests T .string (.string s) = [⟨(stringBytes s).length, 1, true⟩] := by
      rw [requests]; rfl
    rw [hstore, hreqs, Target.size, hT.size_string]
    refine (realizes_stored_pair liftString (realizes_string s)).mono fun _ news w _ hheld => ?_
    simpa only [load, freeMem, drops] using hheld
  | errorContext =>
    intro v hv a
    obtain ⟨x, rfl⟩ := hv.of_errorContext
    exact stored_handle hT.size_errorContext (fun v a => by rw [store]) (fun a => by rw [load])
      (by simp [requests]) fun what w _ => by simp [freeMem, drops]
  | type id t ih =>
    intro v hv a
    have hreqs : requests T (.type id t) v = requests T t v := by rw [requests]
    have hsize : T.size (.type id t) = T.size t := by
      simp only [Target.size, hT.size_type]
    rw [hreqs, hsize, store]
    refine (ih hs.of_type v hv.of_type a).mono fun _ news w _ hheld => ?_
    have hbase : Held (load T t a) (fun what => freeMem T what t a) v
        (requests T (.type id t) v) (fun what => drops what (.type id t) v) news w := by
      simpa only [requests, drops] using hheld
    simpa only [load, freeMem, drops, requests] using held_ifOwns hbase
  | list id t ih =>
    intro v hv a
    obtain ⟨vs, rfl, hvs⟩ := hv.of_list
    have hstore : store T (.list id t) (.list vs) a =
        (lowerBuffer T (T.size t) (T.align t) (vs.map (store T t)) >>= storePair T a) := by
      rw [store]; rfl
    have hreqs : requests T (.list id t) (.list vs) =
        ⟨vs.length * T.size t, T.align t, true⟩ :: (vs.map (requests T t)).flatten := by
      rw [requests]; rfl
    have hbuffer := realizes_buffer (T := T) (a := a) (T.size t) (T.align t) vs
      (requests T t) (store T t) (load T t) (fun what => freeMem T what t)
      (fun v what => drops what t v) fun x hx a => ih hs.of_list x (hvs x hx) a
    rw [hstore, hreqs, Target.size, hT.size_list]
    refine (realizes_stored_pair (fun x => do
      let vs ← loadBuffer (T.size t) (load T t) x
      pure (Val.list vs)) (v := .list vs) (hbuffer.mono fun x news w _ hobs =>
        ⟨hobs.1, hobs.2.map rfl⟩)).mono fun _ news w _ hheld => ?_
    simp only [load, freeMem, drops]
    exact hheld
  | map id k t ihk iht =>
    intro v hv a
    obtain ⟨es, rfl, hes⟩ := hv.of_map
    have hstore : store T (.map id k t) (.map es) a =
        (lowerBuffer T (T.entrySize k t) (T.entryAlign k t) (es.map fun e =>
          storeEntry (T.valueOffset k t) (store T k e.1) (store T t e.2)) >>=
          storePair T a) := by
      rw [store]; rfl
    have hreqs : requests T (.map id k t) (.map es) =
        ⟨es.length * T.entrySize k t, T.entryAlign k t, true⟩ ::
          (es.map fun e => requests T k e.1 ++ requests T t e.2).flatten := by
      rw [requests]; rfl
    have hbuffer := realizes_buffer (T := T) (a := a) (T.entrySize k t)
      (T.entryAlign k t) es (fun e => requests T k e.1 ++ requests T t e.2)
      (fun e => storeEntry (T.valueOffset k t) (store T k e.1) (store T t e.2))
      (loadEntry (T.valueOffset k t) (load T k) (load T t))
      (fun what => freeEntry (T.valueOffset k t) (freeMem T what k) (freeMem T what t))
      (fun e what => drops what k e.1 ++ drops what t e.2) fun e he a =>
        stored_entry hT (ihk hs.of_map.1 e.1 (hes e he).1) (iht hs.of_map.2 e.2 (hes e he).2)
    rw [hstore, hreqs, Target.size, hT.size_map]
    refine (realizes_stored_pair (fun x => do
      let es ← loadBuffer (T.entrySize k t)
        (loadEntry (T.valueOffset k t) (load T k) (load T t)) x
      pure (Val.map es)) (v := .map es) (hbuffer.mono fun x news w _ hobs =>
        ⟨hobs.1, hobs.2.map rfl⟩)).mono fun _ news w _ hheld => ?_
    simp only [load, freeMem, drops]
    exact hheld
  | fixedLengthList id t n ih =>
    intro v hv a
    obtain ⟨vs, rfl, rfl, hvs⟩ := hv.of_fixedLengthList
    have hstore : store T (.fixedLengthList id t vs.length) (.list vs) a =
        ((slots a (T.size t) vs.length).zip vs).forM fun x => store T t x.2 x.1 := by
      rw [store, Val.asFixed, if_pos rfl]; rfl
    have hreqs : requests T (.fixedLengthList id t vs.length) (.list vs) =
        ((vs.map (requests T t)).flatten).map Request.keep := by
      rw [requests, Val.asFixed, if_pos rfl]
    have hslots := realizes_slots (T := T) (a := a) (T.size t) vs
      (requests T t) (store T t) (load T t) (fun what => freeMem T what t)
      (fun v what => drops what t v) fun x hx a => ih hs.of_fixedLengthList x (hvs x hx) a
    rw [hstore, hreqs, Target.size, hT.size_fixedLengthList]
    refine hslots.keep.mono fun _ news w _ hheld => ?_
    have hmapped := hheld.map (f := fun vs => pure (Val.list vs)) (u := .list vs) rfl
    have hkept := hmapped.keep
      (fun what => freeMem T what (.fixedLengthList id t vs.length) a)
      fun what => by simp [freeMem]
    simpa only [load, drops] using hkept
  | fields ty types hf ih =>
    intro v hv a
    obtain ⟨vs, rfl, hlen, hvs⟩ := hv.fieldValues hf
    have hstore : store T ty (.record vs) a =
        ((T.W.fieldOffsets types).zip vs).forM fun x =>
          store T x.1.2 x.2 (a + x.1.1.eval T.p) := by
      rw [store_fields hf, storeFields_eq hT, Val.asRecord, if_pos hlen]; rfl
    have hreqs : requests T ty (.record vs) =
        ((types.zip vs).map fun x => requests T x.1 x.2).flatten := by
      rw [requests_fields hf, collectFields_record hlen]
    have hdrops : ∀ what, drops what ty (.record vs) =
        ((types.zip vs).map fun x => drops what x.1 x.2).flatten := fun what => by
      rw [drops_fields hf, collectFields_record hlen]
    have hfields := realizes_fields (a := a) hT hlen fun x hx =>
      ih x.1 (List.of_mem_zip hx).1 (hs.of_fields hf x.1 (List.of_mem_zip hx).1) x.2
        (hvs x hx)
    rw [hstore, hreqs, Target.size, hT.size_fields ty types hf]
    refine hfields.mono fun _ news w _ hheld => ?_
    have hmapped := hheld.map (f := fun vs => pure (Val.record vs)) (u := .record vs) rfl
    simp only [← hdrops, ← hreqs] at hmapped ⊢
    simp only [load_fields hf, loadFields_eq hT, freeMem_fields hf, freeFields_eq hT]
    exact held_ifOwns hmapped
  | flags id name names =>
    intro v hv a
    obtain ⟨bs, rfl, hlen⟩ := hv.of_flags
    have hfit := hT.flags_fit names.length
    have hreqs : requests T (.flags id name names) (.flags bs) = [] := by simp [requests]
    have hstore : store T (.flags id name names) (.flags bs) a =
        storeWords (T.W.flagsRepr names.length).wordBytes
          (flagWords (T.W.flagsRepr names.length).count bs) a := by
      rw [store, Val.asFlags, if_pos hlen]; rfl
    have hbits : flagBits names.length (flagWords (T.W.flagsRepr names.length).count bs) = bs := by
      rw [← hlen] at hfit ⊢
      apply flagBits_flagWords
      cases hrepr : T.W.flagsRepr bs.length <;>
        simp only [hrepr, FlagsRepr.wordBytes, FlagsRepr.count] at hfit ⊢ <;> omega
    rw [hstore, hreqs]
    have hwords := realizes_words (T := T) (a := a)
      (flagWords (T.W.flagsRepr names.length).count bs)
      (flagWords_lt (T.W.flagsRepr names.length) (by rw [hlen]; exact hfit))
    rw [length_flagWords] at hwords
    refine (hwords.widen (Or.inr ⟨Nat.le_refl _, ?_⟩)).mono ?_
    · exact Nat.add_le_add_left (hT.size_flags id name names) a
    rintro _ news w - ⟨rfl, hread⟩
    refine ⟨?_, fun what => ⟨[], by simp [freeMem, drops], by simp [releasedOf]⟩⟩
    rw [load, run_bind_ok hread, hbits]
    rfl
  | arms ty arms ha ih =>
    intro v hv
    obtain ⟨hlen, hsub⟩ := hs.of_arms ha
    exact stored_arms hT ha hlen hv fun t ht x hx => ih t ht (hsub t ht) x hx
  | enum id name cases =>
    intro v hv a
    obtain ⟨i, rfl, hi⟩ := hv.of_enum
    have hlen := hs.of_enum
    have hreqs : requests T (.enum id name cases) (.enum i) = [] := by simp [requests]
    have hstore : store T (.enum id name cases) (.enum i) a =
        storeNat a (T.W.tag cases.length).bytes (disc i).bits := by
      rw [store, Val.asEnum, if_pos hi]; rfl
    have hdisc : (disc i).bits % 256 ^ (T.W.tag cases.length).bytes = i := by
      rw [disc_bits (Nat.lt_of_lt_of_le hi hlen), Nat.mod_eq_of_lt
        (Nat.lt_of_lt_of_le hi (hT.tag_fits _ hlen))]
    rw [hstore, hreqs]
    have hnat := Realizes.nat (ε := Event) (A := T.A) (a := a)
      (k := (T.W.tag cases.length).bytes) (disc i).bits
    refine (hnat.widen (Or.inr ⟨Nat.le_refl _, ?_⟩)).mono ?_
    · exact Nat.add_le_add_left (hT.size_enum id name cases) a
    rintro _ news w - ⟨rfl, hread⟩
    refine ⟨?_, fun what => ⟨[], by simp [freeMem, drops], by simp [releasedOf]⟩⟩
    rw [load, run_bind_ok hread, hdisc, enumVal, if_pos hi]
    rfl
  | handle id hd name =>
    intro v hv a
    obtain ⟨x, rfl⟩ := hv.of_handle
    refine stored_handle (hT.size_handle id hd name) (fun v a => by rw [store])
      (fun a => by rw [load]) (by simp [requests]) fun what w hread => ?_
    cases hd with
    | own r =>
      rw [freeMem, drops]
      exact free_handle (by rw [Ty.owns]) hread
    | borrow r => simp [freeMem, drops]
  | future id t =>
    intro v hv a
    obtain ⟨x, rfl⟩ := hv.of_future
    refine stored_handle (hT.size_future id t) (fun v a => by rw [store])
      (fun a => by rw [load]) (by simp [requests]) fun what w hread => ?_
    rw [freeMem, drops]
    exact free_handle (by rw [Ty.owns]) hread
  | stream id t =>
    intro v hv a
    obtain ⟨x, rfl⟩ := hv.of_stream
    refine stored_handle (hT.size_stream id t) (fun v a => by rw [store])
      (fun a => by rw [load]) (by simp [requests]) fun what w hread => ?_
    rw [freeMem, drops]
    exact free_handle (by rw [Ty.owns]) hread
  | resource id => exact absurd hs Ty.not_supported_resource
  | unknown id => exact absurd hs Ty.not_supported_unknown

end

end WitBindgen
