import WitBindgen.Machine.Freeing
import WitBindgen.Machine.ParamArea

/-!
# What the deallocations give back

The three users of the two walks. A value that was lowered is disposed of by its
core values or by its address; the two give back the same, if the first is recorded
at all. A guest's export disposes of the result it left in memory in a function of
its own, which is recorded only for results that are returned through a pointer.
-/

namespace WitBindgen

open Heap Code Generator

section
variable {M : Machine} {canon : Ty → Bool} {what : Deallocate} {ty : Ty}

/-! ## What is recorded -/

/-- The code `deallocate_in_types` records for one value, given as `k` operands. -/
def Recorded (M : Machine) (canon : Ty → Bool) (what : Deallocate) (ty : Ty) (k : Nat)
    (indirect : Bool) (code : List CStmt) : Prop :=
  ∃ s n, deallocateTypes (B := recorder M.W canon) M.W what [ty] (List.range k) indirect
    (RecorderState.new k) = .ok ((), s) ∧ s.bindgen = ⟨⟨code, [], n⟩, []⟩

theorem Recorded.unique {k : Nat} {indirect : Bool} {code code' : List CStmt}
    (h : Recorded M canon what ty k indirect code) (h' : Recorded M canon what ty k indirect code') :
    code = code' := by
  obtain ⟨s, n, hrun, hs⟩ := h
  obtain ⟨s', n', hrun', hs'⟩ := h'
  rw [hrun] at hrun'
  obtain rfl : s = s' := congrArg Prod.snd (Except.ok.inj hrun')
  rw [hs] at hs'
  exact congrArg (fun r : RecorderState => r.cur.code) hs'

theorem assertEmptyStack_ok {W : WitParser} {code : List CStmt} {n : Nat} {outer : List Level}
    {rp : Option Nat} {ra : Option Realloc} :
    (assertEmptyStack : RGen W canon Unit) (state [] code [] n outer rp ra) =
      .ok ((), state [] code [] n outer rp ra) := rfl

theorem assertEmptyStack_error {W : WitParser} {stack : List Nat} (h : stack ≠ [])
    {code : List CStmt} {n : Nat} {outer : List Level} {rp : Option Nat} {ra : Option Realloc} :
    (assertEmptyStack : RGen W canon Unit) (state stack code [] n outer rp ra) = .error .assert := by
  have hlen : stack.length ≠ 0 := fun h0 => h (List.length_eq_zero_iff.mp h0)
  show (assert (decide (stack.length = 0)) : RGen W canon Unit) _ = _
  rw [decide_eq_false hlen]
  rfl

/-- The start of the flat loop: the operands of the first type are on the stack. -/
theorem deallocateFlatTypes_cons {W : WitParser} {types : List Ty} {operands : List Nat}
    (hflat : (W.pushFlat ty).length ≤ maxFlatParams)
    (hlen : (W.pushFlat ty).length ≤ operands.length) {stack : List Nat} {code : List CStmt}
    {n : Nat} {outer : List Level} {rp : Option Nat} {ra : Option Realloc} :
    (deallocateFlatTypes W what (ty :: types) operands : RGen W canon Unit)
        (state stack code [] n outer rp ra) =
      (deallocate W what ty >>= fun _ => assertEmptyStack >>= fun _ =>
        deallocateFlatTypes W what types (operands.drop (W.pushFlat ty).length) : RGen W canon Unit)
        (state (stack ++ operands.take (W.pushFlat ty).length) code [] n outer rp ra) := by
  rw [deallocateFlatTypes, bind_ok (flatTypes_ok hflat), bind_ok (slice_ok hlen),
    bind_ok (extend_ok _)]

variable (canon what) in
theorem recorded_flat (hM : M.W.Lawful M.p) (hv : ty.Valid) (hfixed : ty.flatFixed = false)
    (hleft : M.W.leftover ty = 0) (hflat : (M.W.pushFlat ty).length ≤ maxFlatParams) :
    ∃ code n, Recorded M canon what ty (M.W.pushFlat ty).length false code ∧
      ∀ ctx ws, ws.length = (M.W.pushFlat ty).length →
        Computes M.step code ctx (ws.map .word) n (freeFlat M.toTarget what ty ws)
          fun _ _ => True := by
  obtain ⟨code, outs, n, houts, hemits, hcomp⟩ :=
    dispose_ok canon what none hM hv hfixed hflat
      (List.range (M.W.pushFlat ty).length) (M.W.pushFlat ty).length (List.length_range ..)
  obtain rfl := List.length_eq_zero_iff.mp (houts.trans hleft)
  refine ⟨code, n, ⟨state [] code [] n [] none none, n, ?_, rfl⟩, fun ctx ws hlen => ?_⟩
  · have hrange : (List.range (M.W.pushFlat ty).length).length = (M.W.pushFlat ty).length :=
      List.length_range ..
    show (deallocateFlatTypes M.W what [ty] (List.range (M.W.pushFlat ty).length) :
      RGen M.W canon Unit) (state [] [] [] (M.W.pushFlat ty).length [] none none) = _
    rw [deallocateFlatTypes_cons hflat (by rw [hrange]), List.take_of_length_le (by rw [hrange]),
      List.drop_of_length_le (by rw [hrange]), bind_ok (hemits [] [] [] none), List.nil_append,
      List.nil_append, bind_ok assertEmptyStack_ok]
    rfl
  · refine hcomp hleft ctx (ws.map .word) ws (by rw [List.length_map, hlen]) ?_
    have hlookup := lookup_range' ([] : List RVal) (ws.map .word)
    rw [List.nil_append, List.length_nil, List.length_map, ← List.range_eq_range'] at hlookup
    rw [← hlen]
    exact hlookup

/-- A fixed-length list among the core values, or a set of flags of several words, and nothing
is recorded. -/
theorem not_recorded_flat (hM : M.W.Lawful M.p) (hv : ty.Valid)
    (hflat : (M.W.pushFlat ty).length ≤ maxFlatParams)
    (h : ty.flatFixed = true ∨ M.W.leftover ty ≠ 0) (code : List CStmt) :
    ¬ Recorded M canon what ty (M.W.pushFlat ty).length false code := by
  rintro ⟨s, n, hrun, -⟩
  have hrange : (List.range (M.W.pushFlat ty).length).length = (M.W.pushFlat ty).length :=
    List.length_range ..
  have hstart : deallocateTypes (B := recorder M.W canon) M.W what [ty]
      (List.range (M.W.pushFlat ty).length) false (RecorderState.new (M.W.pushFlat ty).length) =
      (deallocate M.W what ty >>= fun _ => assertEmptyStack >>= fun _ =>
        deallocateFlatTypes M.W what [] [] : RGen M.W canon Unit)
        (state (List.range (M.W.pushFlat ty).length) [] [] (M.W.pushFlat ty).length [] none none) := by
    show (deallocateFlatTypes M.W what [ty] (List.range (M.W.pushFlat ty).length) :
      RGen M.W canon Unit) (state [] [] [] (M.W.pushFlat ty).length [] none none) = _
    rw [deallocateFlatTypes_cons hflat (by rw [hrange]), List.take_of_length_le (by rw [hrange]),
      List.drop_of_length_le (by rw [hrange]), List.nil_append]
  rw [hstart] at hrun
  by_cases hfixed : ty.flatFixed = true
  · obtain ⟨e, he⟩ := stops_of_fixed canon what none hM hv hfixed hflat
      (List.range (M.W.pushFlat ty).length) (M.W.pushFlat ty).length hrange [] [] [] none
    rw [List.nil_append] at he
    rw [bind_error he] at hrun
    cases hrun
  · have hleft : M.W.leftover ty ≠ 0 := h.resolve_left hfixed
    obtain ⟨code, outs, n, houts, hemits, -⟩ :=
      dispose_ok canon what none hM hv (by simpa using hfixed) hflat
        (List.range (M.W.pushFlat ty).length) (M.W.pushFlat ty).length hrange
    have hne : ([] : List Nat) ++ outs ≠ [] := by
      rintro hnil
      rw [List.nil_append] at hnil
      rw [hnil] at houts
      exact hleft houts.symm
    have hgen := hemits [] [] [] none
    rw [List.nil_append] at hgen
    rw [bind_ok hgen, bind_error (assertEmptyStack_error hne)] at hrun
    cases hrun

/-- The loop over one indirect value. -/
theorem deallocateInTypes_memory (hW : M.W.Placed) (addr : Nat) :
    (deallocateInTypes M.W what [ty] [addr] true : RGen M.W canon Unit) =
      (deallocateIndirect M.W what ty addr default >>= fun _ => assertEmptyStack) := by
  show ((((M.W.fieldOffsets [ty]).map (·.1)).zip [ty]).forM _ >>= fun _ => _) = _
  rw [hW.fieldOffsets_one]
  show ((deallocateIndirect (B := recorder M.W canon) M.W what ty addr (default + default) >>=
    fun _ => pure ()) >>= fun _ => assertEmptyStack) = _
  rw [bind_assoc]
  rfl

variable (canon what) in
theorem recorded_memory (hW : M.W.Placed) (hM : M.W.Lawful M.p) (hs : ty.Supported) :
    ∃ code n, Recorded M canon what ty 1 true code ∧
      ∀ ctx a, Computes M.step code ctx [.ptr a] n (freeMem M.toTarget what ty a)
        fun _ _ => True := by
  obtain ⟨code, n, hemits, hcomp⟩ := free_ok canon what none hM hs
    0 1 default
  refine ⟨code, n, ⟨state [] code [] n [] none none, n, ?_, rfl⟩, fun ctx a => ?_⟩
  · have hrun := hemits [] [] [] none
    rw [List.append_nil] at hrun
    show (deallocateInTypes M.W what [ty] [0] true : RGen M.W canon Unit)
      (state [] [] [] 1 [] none none) = _
    rw [deallocateInTypes_memory hW, bind_ok hrun]
    rfl
  · have hrun := hcomp ctx [.ptr a] a rfl rfl
    rwa [ArchitectureSize.eval_default] at hrun

end

/-! ## Sets of flags -/

/-- No set of flags that the core values stand for has more than 32 labels. -/
def Ty.NarrowFlags (ty : Ty) : Prop :=
  ∀ id name names, Ty.flags id name names ∈ ty.flatLeaves → names.length ≤ 32

theorem leftover_eq_zero_iff {W : WitParser} (hW : W.Placed) (ty : Ty) :
    W.leftover ty = 0 ↔ ty.NarrowFlags := by
  rw [WitParser.leftover, List.sum_eq_zero_iff_forall_eq_nat]
  constructor
  · intro h id name names hmem
    exact (hW.flags_words names.length).mp (Nat.sub_eq_zero_iff_le.mp (h _ (List.mem_map_of_mem hmem)))
  · intro h n hn
    obtain ⟨l, hl, rfl⟩ := List.mem_map.mp hn
    cases l with
    | flags id name names =>
      exact Nat.sub_eq_zero_of_le ((hW.flags_words names.length).mpr (h id name names hl))
    | _ => rfl

section
variable {M : Machine} {canon : Ty → Bool} {what : Deallocate} {ty : Ty}

/-! ## Values that were lowered -/

/-- A value that was lowered is given back, by its core values and by its address: the recorded
code frees what the canonical ABI frees, which looks at active cases only, and that is each
buffer lowering allocated, once, and no other; and it drops the handles it is to drop. -/
structure GivenBack (M : Machine) (canon : Ty → Bool) (what : Deallocate) (ty : Ty) : Prop where
  flat : (M.W.pushFlat ty).length ≤ maxFlatParams → ∃ code n,
    Recorded M canon what ty (M.W.pushFlat ty).length false code ∧
    (∀ ctx ws, ws.length = (M.W.pushFlat ty).length →
      Computes M.step code ctx (ws.map .word) n (freeFlat M.toTarget what ty ws)
        fun _ _ => True) ∧
    ∀ v, Fits v ty → ∀ ctx, Realizes M.A 0 0 (requests M.toTarget ty v)
      (lowerFlat M.toTarget ty v) fun ws news w => ∃ order env,
        execCode M.step code ctx (ws.map .word) w = .ok (env, w.after order (drops what ty v)) ∧
          order.Perm news
  memory : ∃ code n, Recorded M canon what ty 1 true code ∧
    (∀ ctx a, Computes M.step code ctx [.ptr a] n (freeMem M.toTarget what ty a)
      fun _ _ => True) ∧
    ∀ v, Fits v ty → ∀ ctx a, Realizes M.A a (M.size ty) (requests M.toTarget ty v)
      (store M.toTarget ty v a) fun _ news w => ∃ order env,
        execCode M.step code ctx [.ptr a] w = .ok (env, w.after order (drops what ty v)) ∧
          order.Perm news

/-- Where no fixed-length list is reached nothing is kept back. -/
theorem keepsBack_of_no_fixed (h : ∀ t ∈ ty.parts, t.isFixedLengthList = false) :
    ty.keepsBack = false := by
  refine List.any_eq_false.mpr fun t ht => ?_
  have hno := h t ht
  cases t with
  | fixedLengthList id t n => cases hno
  | _ => simp

theorem flatFixed_of_no_fixed (h : ∀ t ∈ ty.parts, t.isFixedLengthList = false) :
    ty.flatFixed = false :=
  List.any_eq_false.mpr fun t ht => by simpa using h t (ty.flatLeaves_subset_parts ht)

/-- A value of a type without fixed-length lists is given back, unless a set of more than 32 flags
is among what its core values stand for. -/
theorem lowered_given_back_iff (hW : M.W.Placed) (hM : M.W.Lawful M.p) (hv : ty.Valid)
    (hno : ∀ t ∈ ty.parts, t.isFixedLengthList = false) :
    GivenBack M canon what ty ↔
      ((M.W.pushFlat ty).length ≤ maxFlatParams → ty.NarrowFlags) := by
  -- no fixed-length list keeps anything back
  have hreleased : ∀ v, ∀ r ∈ requests M.toTarget ty v, r.released = true :=
    requests_released (keepsBack_of_no_fixed hno)
  have hnarrow : M.W.leftover ty = 0 ↔ ty.NarrowFlags := leftover_eq_zero_iff hW ty
  constructor
  · intro h hflat
    obtain ⟨code, n, hrec, -⟩ := h.flat hflat
    refine hnarrow.mp ?_
    by_contra hleft
    exact not_recorded_flat hM hv hflat (Or.inr hleft) code hrec
  · intro hcond
    refine ⟨fun hflat => ?_, ?_⟩
    · obtain ⟨code, n, hrec, hcomp⟩ := recorded_flat canon what hM hv
        (flatFixed_of_no_fixed hno) (hnarrow.mpr (hcond hflat)) hflat
      refine ⟨code, n, hrec, hcomp, fun v hfit ctx => ?_⟩
      refine (lowered hM hv.supported v hfit).mono fun ws news w hlen hobs => ?_
      obtain ⟨order, hrun, hperm⟩ := hobs.2.free what
      rw [releasedOf_all hlen (hreleased v)] at hperm
      obtain ⟨env, hexec, -⟩ := Agree.run_ok (hcomp ctx ws hobs.1.length) hrun
      exact ⟨order, env, hexec, hperm⟩
    · obtain ⟨code, n, hrec, hcomp⟩ := recorded_memory canon what hW hM
        hv.supported
      refine ⟨code, n, hrec, hcomp, fun v hfit ctx a => ?_⟩
      refine (stored hM hv.supported v hfit a).mono fun _ news w hlen hobs => ?_
      obtain ⟨order, hrun, hperm⟩ := hobs.free what
      rw [releasedOf_all hlen (hreleased v)] at hperm
      obtain ⟨env, hexec, -⟩ := Agree.run_ok (hcomp ctx a) hrun
      exact ⟨order, env, hexec, hperm⟩

/-! ## The two ways agree -/

theorem length_releasedOf {rs : List Request} {bs : List Block} (h : bs.length = rs.length) :
    (releasedOf rs bs).length = (rs.filter (·.released)).length := by
  have hfst : rs.filter (·.released) = ((rs.zip bs).filter (·.1.released)).map (·.1) := by
    conv_lhs => rw [← List.map_fst_zip (show rs.length ≤ bs.length by rw [h]), List.filter_map]
    rfl
  rw [releasedOf, List.length_map, hfst, List.length_map]

/-- Something is released or dropped exactly if the value has something to give back. -/
theorem given_iff {T : Target} {v : Val} {order news : List Block}
    (hlen : news.length = (requests T ty v).length)
    (hperm : order.Perm (releasedOf (requests T ty v) news)) :
    (order ≠ [] ∨ drops what ty v ≠ []) ↔ Given T what ty v := by
  have hne : ∀ {α : Type} (xs : List α), xs ≠ [] ↔ ∃ x, x ∈ xs := fun xs =>
    ⟨List.exists_mem_of_ne_nil xs, fun ⟨_, hx⟩ => List.ne_nil_of_mem hx⟩
  have horder : order ≠ [] ↔ ∃ r ∈ requests T ty v, r.released = true := by
    rw [← List.length_pos_iff, hperm.length_eq, length_releasedOf hlen, List.length_pos_iff, hne]
    simp [List.mem_filter]
  rw [Given, horder, hne]

/-- The core values of a value and its address give back the same blocks and handles, and what
they give back is something for some value exactly if `needs_deallocate` says so. -/
structure WaysAgree (M : Machine) (canon : Ty → Bool) (what : Deallocate) (ty : Ty) : Prop where
  flat : (M.W.pushFlat ty).length ≤ maxFlatParams → ∃ code,
    Recorded M canon what ty (M.W.pushFlat ty).length false code
  memory : ∃ code, Recorded M canon what ty 1 true code
  same : ∀ flat mem, (M.W.pushFlat ty).length ≤ maxFlatParams →
    Recorded M canon what ty (M.W.pushFlat ty).length false flat →
    Recorded M canon what ty 1 true mem →
    ∀ v, Fits v ty → ∀ (w : World Event) a, Accessible w.live a (M.size ty) →
      ∀ ws w₁ w₂, lowerFlat M.toTarget ty v w = .ok (ws, w₁) →
        store M.toTarget ty v a w = .ok ((), w₂) → ∀ ctx, ∃ order₁ order₂ evs env₁ env₂,
          execCode M.step flat ctx (ws.map .word) w₁ = .ok (env₁, w₁.after order₁ evs) ∧
          execCode M.step mem ctx [.ptr a] w₂ = .ok (env₂, w₂.after order₂ evs) ∧
          order₁.Perm order₂ ∧
          ((order₁ ≠ [] ∨ evs ≠ []) ↔ Given M.toTarget what ty v)
  needed : (∃ v, Fits v ty ∧ Given M.toTarget what ty v) ↔ needsDeallocate what ty = .ok true

/-- The ways agree unless a fixed-length list or a set of more than 32 flags is among what the core
values stand for, or the type holds error contexts or what fixed-length lists keep and nothing that
is freed. -/
theorem ways_agree_iff (hW : M.W.Placed) (hM : M.W.Lawful M.p) (hv : ty.Valid) :
    WaysAgree M canon what ty ↔
      ((M.W.pushFlat ty).length ≤ maxFlatParams → ty.flatFixed = false ∧ ty.NarrowFlags) ∧
      (ty.Spares what → ty.Frees what) := by
  have hnarrow : M.W.leftover ty = 0 ↔ ty.NarrowFlags := leftover_eq_zero_iff hW ty
  have hneeds : needsDeallocate what ty = .ok true ↔ ty.owns what = true := by
    rw [needsDeallocate_ok hv.supported]
    simp
  have hgiven : (∃ v, Fits v ty ∧ Given M.toTarget what ty v) ↔ ty.gives what = true := by
    constructor
    · rintro ⟨v, -, hgiven⟩
      by_contra hno
      exact not_given (by simpa using hno) v hgiven
    · exact exists_given hv
  constructor
  · intro h
    refine ⟨fun hflat => ?_, fun hspares => ?_⟩
    · obtain ⟨code, hrec⟩ := h.flat hflat
      by_contra hcond
      refine not_recorded_flat hM hv hflat ?_ code hrec
      by_cases hfixed : ty.flatFixed = true
      · exact Or.inl hfixed
      · exact Or.inr fun hleft => hcond ⟨by simpa using hfixed, hnarrow.mp hleft⟩
    · have howns : ty.owns what = true := Ty.owns_iff.mpr (Or.inr hspares)
      exact Ty.gives_iff.mp (hgiven.mp (h.needed.mpr (hneeds.mpr howns)))
  · rintro ⟨hcond, hfrees⟩
    obtain ⟨mem, n', hmem, hmemComp⟩ := recorded_memory canon what hW hM
      hv.supported
    refine ⟨fun hflat => ?_, ⟨mem, hmem⟩, ?_, ?_⟩
    · obtain ⟨code, n, hrec, -⟩ := recorded_flat canon what hM hv
        (hcond hflat).1 (hnarrow.mpr (hcond hflat).2) hflat
      exact ⟨code, hrec⟩
    · intro flat mem' hflat hrec hrec' v hfit w a hacc ws w₁ w₂ hlower hstore ctx
      obtain rfl := hmem.unique hrec'
      obtain ⟨code, n, hcode, hcomp⟩ := recorded_flat canon what hM hv
        (hcond hflat).1 (hnarrow.mpr (hcond hflat).2) hflat
      obtain rfl := hcode.unique hrec
      -- both ways start from one world, so the allocator answers them alike
      rcases lowered hM hv.supported v hfit w (Or.inl rfl) with hoom | ⟨ws', w₁', news, hrun, hplace,
        hgrow, hobs⟩
      · rw [hlower] at hoom; cases hoom
      obtain ⟨rfl, rfl⟩ := Prod.mk.inj (Except.ok.inj (hlower.symm.trans hrun))
      rcases stored hM hv.supported v hfit a w hacc with hoom | ⟨u, w₂', news', hrun', hplace',
        hgrow', hobs'⟩
      · rw [hstore] at hoom; cases hoom
      obtain ⟨-, rfl⟩ := Prod.mk.inj (Except.ok.inj (hstore.symm.trans hrun'))
      obtain rfl := Option.some.inj (hplace.symm.trans hplace')
      obtain ⟨hwords, hheld⟩ := hobs w₁ (hgrow.agrees_self (Or.inl rfl))
      obtain ⟨order₁, hfree₁, hperm₁⟩ := hheld.free what
      obtain ⟨order₂, hfree₂, hperm₂⟩ := (hobs' w₂ (hgrow'.agrees_self hacc)).free what
      obtain ⟨env₁, hexec₁, -⟩ := Agree.run_ok (hcomp ctx ws hwords.length) hfree₁
      obtain ⟨env₂, hexec₂, -⟩ := Agree.run_ok (hmemComp ctx a) hfree₂
      exact ⟨order₁, order₂, drops what ty v, env₁, env₂, hexec₁, hexec₂, hperm₁.trans hperm₂.symm,
        given_iff (M.A.place_length hplace) hperm₁⟩
    · rw [hgiven, hneeds]
      refine ⟨Ty.owns_of_gives, fun howns => Ty.gives_iff.mpr ?_⟩
      exact (Ty.owns_iff.mp howns).elim id hfrees

/-! ## Results of exports -/

variable {func : Function}

/-- The code of the post-return function of an export. -/
def RecordedPostReturn (M : Machine) (canon : Ty → Bool) (func : Function) (code : List CStmt) :
    Prop :=
  ∃ s n, postReturn (B := recorder M.W canon) M.W func (RecorderState.new 0) = .ok ((), s) ∧
    s.bindgen = ⟨⟨code, [], n⟩, []⟩

variable (canon) in
theorem postReturn_recorded (hW : M.W.Placed) (hM : M.W.Lawful M.p)
    (hr : func.result = some ty) (hs : ty.Supported)
    (hretptr : (M.W.wasmSignature .guestExport func).retptr = true) :
    ∃ code n, RecordedPostReturn M canon func code ∧ ∀ ctx a, ctx.args[0]? = some (RVal.ptr a) →
      Computes M.step code ctx [] n (freeMem M.toTarget .lists ty a) fun _ _ => True := by
  obtain ⟨code, n, hemits, hcomp⟩ := free_ok canon .lists none hM hs
    0 1 default
  have harg : Emits none (emit M.W (.getArg 0) : RGen M.W canon Unit) [] 0 () [0]
    [Code.Stmt.mk (Op.inst (.getArg 0)) [] []] (0 + 1) := Emits.emit rfl rfl rfl
  have hreturn : Emits none (emit M.W (.return_ 0 func) : RGen M.W canon Unit) [] n () []
    [Code.Stmt.mk (Op.inst (.return_ 0 func)) [] []] (n + 0) := Emits.emit rfl rfl rfl
  refine ⟨[Code.Stmt.mk (Op.inst (.getArg 0)) [] []] ++ code ++
    [Code.Stmt.mk (Op.inst (.return_ 0 func)) [] []], n + 0,
    ⟨state [] ([Code.Stmt.mk (Op.inst (.getArg 0)) [] []] ++ code ++
      [Code.Stmt.mk (Op.inst (.return_ 0 func)) [] []]) [] (n + 0) [] none none, n + 0, ?_, rfl⟩, ?_⟩
  -- the return pointer, freeing behind it, and the return
  · have hassert : (assert (M.W.wasmSignature .guestExport func).retptr : RGen M.W canon Unit)
        (state [] [] [] 0 [] none none) = .ok ((), state [] [] [] 0 [] none none) := by
      rw [hretptr]
      rfl
    have hget := harg [] [] [] none
    have hfree := hemits [] [Code.Stmt.mk (Op.inst (.getArg 0)) [] []] [] none
    have hret := hreturn [] ([Code.Stmt.mk (Op.inst (.getArg 0)) [] []] ++ code) [] none
    rw [List.nil_append] at hget hfree hret
    have hpop : (pop : RGen M.W canon Nat) (state ([] ++ [0]) ([] ++
        [Code.Stmt.mk (Op.inst (.getArg 0)) [] []]) [] (0 + 1) [] none none) =
        .ok (0, state [] [Code.Stmt.mk (Op.inst (.getArg 0)) [] []] [] 1 [] none none) := pop_ok 0
    show (Generator.postReturn M.W func : RGen M.W canon Unit) (state [] [] [] 0 [] none none) = _
    rw [Generator.postReturn, bind_ok hassert, bind_ok hget, bind_ok hpop, hr, Option.toList_some,
      deallocateInTypes_memory hW, bind_assoc, bind_ok hfree, bind_ok assertEmptyStack_ok, hret]
  · intro ctx a ha
    have hinst : M.instSem (.getArg 0) ctx [] [] = pure [.ptr a] := by
      show (require ctx.args[0]? >>= fun x => pure [x]) = _
      rw [ha]
      rfl
    have hnil : ([] : List RVal).length = 0 := rfl
    have hfree : Computes M.step ([Code.Stmt.mk (Op.inst (.getArg 0)) [] []] ++ code) ctx [] n
        (pure () >>= fun _ => freeMem M.toTarget .lists ty a) fun _ _ => True :=
      Computes.append (computes_value hnil hinst) fun env₁ _ _ hlen hptr => by
        have hrun := hcomp ctx env₁ a hlen hptr
        rwa [ArchitectureSize.eval_default] at hrun
    rw [← bind_pure_unit (x := freeMem M.toTarget .lists ty a)]
    exact Computes.append hfree fun env₂ _ _ hlen _ => computes_effect hlen (lookup_nil env₂) rfl

/-- What is wanted of the post-return of an export: the result is returned through a pointer, the
post-return is recorded, and run on a result in memory it frees the buffers of it that are marked as
released, each once and no other; and every buffer of a result is so marked. -/
structure FreesResult (M : Machine) (canon : Ty → Bool) (func : Function) : Prop where
  retptr : (M.W.wasmSignature .guestExport func).retptr = true
  recorded : ∃ code, RecordedPostReturn M canon func code ∧
    ∀ t ∈ func.result, ∀ v, Fits v t → ∀ ctx a, ctx.args[0]? = some (RVal.ptr a) →
      Realizes M.A a (M.size t) (requests M.toTarget t v) (store M.toTarget t v a)
        fun _ news w => ∃ order env, execCode M.step code ctx [] w = .ok (env, w.after order []) ∧
          order.Perm (releasedOf (requests M.toTarget t v) news)
  complete : ∀ t ∈ func.result, ∀ v, Fits v t → ∀ r ∈ requests M.toTarget t v, r.released = true

/-- An export that is said to need a post-return has one that frees its result, if the result is
more than one core value and holds no buffers inside a fixed-length list. -/
theorem frees_result_iff (hW : M.W.Placed) (hsig : M.W.Signatures) (hM : M.W.Lawful M.p)
    (hresult : ∀ t ∈ func.result, t.Valid) (hneeds : guestExportNeedsPostReturn func = .ok true) :
    FreesResult M canon func ↔
      ∀ t ∈ func.result, 1 < (M.W.pushFlat t).length ∧ t.keepsBack = false := by
  obtain ⟨ty, hr⟩ : ∃ ty, func.result = some ty := by
    cases hr : func.result with
    | none => rw [guestExportNeedsPostReturn, hr] at hneeds; cases hneeds
    | some ty => exact ⟨ty, rfl⟩
  have hv : ty.Valid := hresult ty hr
  constructor
  · intro h t ht
    obtain rfl := Option.some.inj (hr.symm.trans ht)
    refine ⟨(hsig.retptr func ty hr).mp h.retptr, ?_⟩
    -- otherwise some value has something that is kept
    by_contra hkeeps
    obtain ⟨v, hfit, r, hmem, hkept⟩ := exists_kept (T := M.toTarget) hv (by simpa using hkeeps)
    rw [h.complete ty hr v hfit r hmem] at hkept
    cases hkept
  · intro h
    obtain ⟨hlen, hkeeps⟩ := h ty hr
    have hretptr := (hsig.retptr func ty hr).mpr hlen
    obtain ⟨code, n, hrec, hcomp⟩ := postReturn_recorded canon hW hM hr hv.supported
      hretptr
    refine ⟨hretptr, ⟨code, hrec, fun t ht v hfit ctx a ha => ?_⟩, fun t ht v _ => ?_⟩
    · obtain rfl := Option.some.inj (hr.symm.trans ht)
      refine (stored hM hv.supported v hfit a).mono fun _ news w _ hobs => ?_
      obtain ⟨order, hrun, hperm⟩ := hobs.free .lists
      obtain ⟨env, hexec, -⟩ := Agree.run_ok (hcomp ctx a ha) hrun
      rw [drops_lists] at hexec
      exact ⟨order, env, hexec, hperm⟩
    · obtain rfl := Option.some.inj (hr.symm.trans ht)
      exact requests_released hkeeps v

end

/-! ## Types that go wrong -/

theorem names_given_back : GivenBack bumpMachine (fun _ => false) .listsAndOwn (.list 0 .string) ↔
    ((bumpMachine.W.pushFlat (.list 0 .string)).length ≤ maxFlatParams →
      Ty.NarrowFlags (.list 0 .string)) := by
  refine lowered_given_back_iff canonical_placed bumpMachine_lawful (.list .string) fun t ht => ?_
  rw [Ty.parts, Ty.parts] at ht
  · rcases List.mem_cons.mp ht with rfl | ht
    · rfl
    · obtain rfl := List.mem_singleton.mp ht
      rfl
  all_goals intros; contradiction

/-- Thirty-three flags: two words. -/
def manyFlags : Ty := .flags 0 "permissions" (List.replicate 33 "p")

theorem manyFlags_leaves : manyFlags.flatLeaves = [manyFlags] := by
  rw [manyFlags, Ty.flatLeaves] <;> simp

theorem manyFlags_flat : bumpMachine.W.pushFlat manyFlags = [.i32, .i32] := by
  show Ty.pushFlat (.flags 0 "permissions" (List.replicate 33 "p")) = _
  rw [Ty.pushFlat]
  rfl

theorem manyFlags_valid : manyFlags.Valid := .flags (by simp)

/-- The second word of the flags is never popped, and the generator stops. -/
theorem manyFlags_stop : ¬ GivenBack bumpMachine (fun _ => false) .lists manyFlags := by
  intro h
  have hflat : (bumpMachine.W.pushFlat manyFlags).length ≤ maxFlatParams := by
    rw [manyFlags_flat]; decide
  obtain ⟨code, n, hrec, -⟩ := h.flat hflat
  refine not_recorded_flat bumpMachine_lawful manyFlags_valid hflat (Or.inr ?_) code hrec
  rw [WitParser.leftover, manyFlags_leaves]
  decide

/-- `list<u8, 4>` can be lowered to four core values, which nothing can dispose of. -/
theorem fixed_bytes_disagree :
    ¬ WaysAgree bumpMachine (fun _ => false) .lists (.fixedLengthList 0 (.prim .u8) 4) := by
  intro h
  have hflat : (bumpMachine.W.pushFlat (.fixedLengthList 0 (.prim .u8) 4)).length ≤
      maxFlatParams := by
    show (Ty.pushFlat (.fixedLengthList 0 (.prim .u8) 4)).length ≤ _
    rw [Ty.pushFlat, Ty.pushFlat]
    decide
  obtain ⟨code, hrec⟩ := h.flat hflat
  refine not_recorded_flat bumpMachine_lawful (.fixedLengthList (by decide) (.prim _)) hflat
    (Or.inl ?_) code hrec
  rw [Ty.flatFixed, Ty.flatLeaves]
  · rfl
  all_goals intros; contradiction

theorem names_agree : WaysAgree bumpMachine (fun _ => false) .lists (.list 0 .string) ↔
    ((bumpMachine.W.pushFlat (.list 0 .string)).length ≤ maxFlatParams →
      Ty.flatFixed (.list 0 .string) = false ∧ Ty.NarrowFlags (.list 0 .string)) ∧
    (Ty.Spares .lists (.list 0 .string) → Ty.Frees .lists (.list 0 .string)) :=
  ways_agree_iff canonical_placed bumpMachine_lawful (.list .string)

/-- `names: func() -> list<string>` -/
def names : Function := ⟨"names", .freestanding, [], some (.list 0 .string)⟩

theorem names_frees_result : FreesResult bumpMachine (fun _ => false) names ↔
    ∀ t ∈ names.result, 1 < (bumpMachine.W.pushFlat t).length ∧ t.keepsBack = false := by
  refine frees_result_iff canonical_placed canonical_signatures bumpMachine_lawful (fun t ht => ?_) ?_
  · obtain rfl := Option.some.inj ht
    exact .list .string
  · show needsDeallocate .lists (.list 0 .string) = .ok true
    rw [needsDeallocate]
    rfl

/-- `last-error: func() -> error-context` -/
def lastError : Function := ⟨"last-error", .freestanding, [], some .errorContext⟩

/-- The result is one core value, and the post-return asked for cannot be generated. -/
theorem lastError_stops : guestExportNeedsPostReturn lastError = .ok true ∧
    postReturn (B := recorder .canonical fun _ => false) .canonical lastError (RecorderState.new 0) =
      .error .assert := by
  constructor
  · show needsDeallocate .lists .errorContext = .ok true
    rw [needsDeallocate]
    rfl
  · have hretptr : (WitParser.canonical.wasmSignature .guestExport lastError).retptr = false := by
      show (wasmSignature .guestExport lastError).retptr = false
      unfold wasmSignature
      rw [lastError, Option.map_some, Option.getD_some, Ty.pushFlat]
      rfl
    show (Generator.postReturn .canonical lastError : RGen .canonical (fun _ => false) Unit) _ = _
    rw [Generator.postReturn, hretptr]
    rfl

end WitBindgen
