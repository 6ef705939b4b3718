import WitBindgen.CSharp.AsyncSupport

/-!
# Runs of a component task

What starts an operation adds its waitable to the host's busy ones and to the
entries, and an event that ends one takes it out of both. Between the two, user
code may start more, and that a returned subtask is still to be dropped is all
there is to remember.
-/

namespace WitBindgen.CSharp.Async

structure Inv (s : State) : Prop where
  calm : s.thrown = none
  entry : ∀ h op, (h, op) ∈ s.waitables.getD [] ↔ s.InFlight h op
  context : s.waitables.getD [] ≠ [] → s.context = true
  subtask : ∀ h op st, s.table h = some (.subtask op st) → ∃ o, s.ops op = some o ∧
    o.kind = .subtask ∧ o.waitable = h ∧ (o.terminal = true ↔ st = .returned)
  stream : ∀ h op, s.table h = some (.stream (some op)) → ∃ o, s.ops op = some o ∧
    o.kind = .copy ∧ o.waitable = h ∧ o.terminal = false
  /-- A returned subtask is the one that `Callback` drops. -/
  returned : ∀ h op, s.table h = some (.subtask op .returned) → s.phase = .callback (some h)
  pending : ∀ h, s.phase = .callback (some h) → ∃ op, s.table h = some (.subtask op .returned)
  resolved : ∀ op o, s.ops op = some o → o.resolutions.length = if o.terminal then 1 else 0
  busy : ∀ op o, s.ops op = some o → o.terminal = false → s.InFlight o.waitable op
  undropped : ∀ h op st, s.table h = some (.subtask op st) → s.dropped.count op = 0
  dropped : ∀ op o, s.ops op = some o → o.kind = .subtask →
    (∀ h st, s.table h ≠ some (.subtask op st)) → s.dropped.count op = 1
  fresh : ∀ op, s.nextOp ≤ op → s.ops op = none ∧ s.dropped.count op = 0
  exits : s.phase = .exited → s.waitables.getD [] = []

namespace State

variable {s s' : State}

theorem inFlight_congr {h op : Nat} (ht : s'.table h = s.table h) :
    s'.InFlight h op ↔ s.InFlight h op := by
  rw [InFlight, InFlight, ht]

theorem not_inFlight {h op : Nat} (hk : s.table h = none ∨ s.table h = some (.stream none)) :
    ¬ s.InFlight h op := by
  rintro (⟨st, ht, -⟩ | ht) <;> rcases hk with hk | hk <;> cases hk.symm.trans ht

/-- At most one operation is in flight at a waitable. -/
theorem InFlight.op_eq {h op op' : Nat} (hf : s.InFlight h op) (hf' : s.InFlight h op') :
    op = op' := by
  rcases hf with ⟨st, ht, -⟩ | ht <;> rcases hf' with ⟨st', ht', -⟩ | ht' <;>
    cases ht.symm.trans ht'
  · rfl
  · rfl

theorem mem_addTaskToWaitables {h k op op' : Nat} :
    (k, op') ∈ (s.addTaskToWaitables h op).waitables.getD [] ↔
      k ≠ h ∧ (k, op') ∈ s.waitables.getD [] ∨ k = h ∧ op' = op := by
  simp [addTaskToWaitables, and_comm]

theorem getD_remove {h : Nat} :
    (s.remove h).waitables.getD [] = (s.waitables.getD []).filter (fun p => p.1 ≠ h) := by
  rw [remove]
  cases s.waitables <;> rfl

theorem mem_remove {h k op : Nat} :
    (k, op) ∈ (s.remove h).waitables.getD [] ↔ k ≠ h ∧ (k, op) ∈ s.waitables.getD [] := by
  rw [getD_remove, List.mem_filter, and_comm, decide_eq_true_iff]

end State

namespace Inv

variable {s : State}

theorem initial : Inv State.initial where
  calm := rfl
  entry h op := by
    constructor
    · intro hm
      cases hm
    · rintro (⟨st, ht, -⟩ | ht) <;> cases ht
  context h := absurd rfl h
  subtask _ _ _ h := by cases h
  stream _ _ h := by cases h
  returned _ _ h := by cases h
  pending _ h := by cases h
  resolved _ _ h := by cases h
  busy _ _ h := by cases h
  undropped _ _ _ h := by cases h
  dropped _ _ h := by cases h
  fresh _ _ := ⟨rfl, rfl⟩
  exits h := by cases h

theorem inFlight (h : Inv s) {k op : Nat} (hf : s.InFlight k op) : ∃ o, s.ops op = some o ∧
    o.kind ≠ .immediate ∧ o.waitable = k ∧ o.terminal = false ∧ o.resolutions = [] := by
  have hopen : ∀ o, s.ops op = some o → o.terminal = false → o.resolutions = [] := by
    intro o ho ht
    have hr := h.resolved op o ho
    rw [ht] at hr
    exact List.eq_nil_of_length_eq_zero hr
  rcases hf with ⟨st, ht, hne⟩ | ht
  · obtain ⟨o, ho, hkind, hw, hterm⟩ := h.subtask k op st ht
    have hfalse : o.terminal = false := by
      rw [Bool.eq_false_iff]
      exact fun heq => hne (hterm.mp heq)
    exact ⟨o, ho, by rw [hkind]; simp, hw, hfalse, hopen o ho hfalse⟩
  · obtain ⟨o, ho, hkind, hw, hterm⟩ := h.stream k op ht
    exact ⟨o, ho, by rw [hkind]; simp, hw, hterm, hopen o ho hterm⟩

/-- Entries are for one operation. -/
theorem find (h : Inv s) {k op : Nat} (hf : s.InFlight k op) :
    ∃ w, s.waitables = some w ∧ w.find? (fun p => p.1 == k) = some (k, op) := by
  have hmem := (h.entry k op).mpr hf
  cases hw : s.waitables with
  | none =>
    rw [hw] at hmem
    cases hmem
  | some w =>
    rw [hw] at hmem
    refine ⟨w, rfl, ?_⟩
    cases hfind : w.find? (fun p => p.1 == k) with
    | none =>
      have hno := List.find?_eq_none.mp hfind (k, op) hmem
      exact absurd (beq_self_eq_true k) hno
    | some p =>
      obtain ⟨k', op'⟩ := p
      have hk : k' = k := by simpa using List.find?_some hfind
      subst hk
      have hmem' := List.mem_of_find?_eq_some hfind
      have hf' : s.InFlight k' op' := (h.entry k' op').mp (by rw [hw]; exact hmem')
      rw [hf.op_eq hf']

/-! ## Operations start -/

/-- An operation that is over when it starts. -/
theorem immediate (h : Inv s) {o : Op} (hkind : o.kind = .immediate) (hterm : o.terminal = true)
    (hres : o.resolutions.length = 1) : Inv (s.newOp o) := by
  have hold : ∀ op o', s.ops op = some o' → Function.update s.ops s.nextOp (some o) op = some o' := by
    intro op o' ho
    have hne : op ≠ s.nextOp := by
      rintro rfl
      rw [(h.fresh _ (Nat.le_refl _)).1] at ho
      cases ho
    rw [Function.update_of_ne hne, ho]
  have hnew : ∀ op o', Function.update s.ops s.nextOp (some o) op = some o' →
      o' = o ∨ s.ops op = some o' := by
    intro op o' ho
    by_cases heq : op = s.nextOp
    · rw [heq, Function.update_self] at ho
      exact Or.inl (Option.some.inj ho).symm
    · rw [Function.update_of_ne heq] at ho
      exact Or.inr ho
  refine { h with
    subtask := fun k op st ht => ?_
    stream := fun k op ht => ?_
    resolved := fun op o' ho => ?_
    busy := fun op o' ho ht => ?_
    dropped := fun op o' ho hk hno => ?_
    fresh := fun op hle => ?_ }
  · obtain ⟨o', ho, hrest⟩ := h.subtask k op st ht
    exact ⟨o', hold op o' ho, hrest⟩
  · obtain ⟨o', ho, hrest⟩ := h.stream k op ht
    exact ⟨o', hold op o' ho, hrest⟩
  · rcases hnew op o' ho with rfl | ho
    · rw [hres, hterm, if_pos rfl]
    · exact h.resolved op o' ho
  · rcases hnew op o' ho with rfl | ho
    · cases hterm.symm.trans ht
    · exact h.busy op o' ho ht
  · rcases hnew op o' ho with rfl | ho
    · cases hkind.symm.trans hk
    · exact h.dropped op o' ho hk hno
  · have hlt : s.nextOp ≤ op := Nat.le_of_succ_le hle
    refine ⟨?_, (h.fresh op hlt).2⟩
    show Function.update s.ops s.nextOp (some o) op = none
    rw [Function.update_of_ne (Nat.ne_of_gt hle)]
    exact (h.fresh op hlt).1

/-- An operation that the host is at work on. -/
theorem start (h : Inv s) {k : Nat} {kind : Kind} {w : Waitable} (hrun : s.Running)
    (hk : s.table k = none ∨ s.table k = some (.stream none))
    (hw : kind = .subtask ∧ (∃ st, st ≠ .returned ∧ w = .subtask s.nextOp st) ∨
      kind = .copy ∧ w = .stream (some s.nextOp)) :
    Inv (((s.newOp ⟨kind, k, true, [], false⟩).setTable k (some w)).join k s.nextOp) := by
  let s' := ((s.newOp ⟨kind, k, true, [], false⟩).setTable k (some w)).join k s.nextOp
  have hself : s'.table k = some w := Function.update_self ..
  have hother : ∀ j, j ≠ k → s'.table j = s.table j := fun j hj => Function.update_of_ne hj ..
  have hnewOp : s'.ops s.nextOp = some ⟨kind, k, true, [], false⟩ := Function.update_self ..
  have hops : ∀ op, op ≠ s.nextOp → s'.ops op = s.ops op := fun op hne =>
    Function.update_of_ne hne ..
  have hne : ∀ op o, s.ops op = some o → op ≠ s.nextOp := by
    rintro op o ho rfl
    rw [(h.fresh _ (Nat.le_refl _)).1] at ho
    cases ho
  have hflight : ∀ op, s'.InFlight k op ↔ op = s.nextOp := by
    intro op
    rw [State.InFlight, hself]
    rcases hw with ⟨-, st, hst, rfl⟩ | ⟨-, rfl⟩
    · constructor
      · rintro (⟨st', ht, -⟩ | ht) <;> cases ht
        rfl
      · rintro rfl
        exact Or.inl ⟨st, rfl, hst⟩
    · constructor
      · rintro (⟨st', ht, -⟩ | ht) <;> cases ht
        rfl
      · rintro rfl
        exact Or.inr rfl
  have hphase : s.phase ≠ .exited := by
    rintro hp
    rcases hrun with hp' | ⟨d, hp'⟩ <;> cases hp.symm.trans hp'
  have hkeep : ∀ h' op st, s'.table h' = some (.subtask op st) →
      h' = k ∧ op = s.nextOp ∧ st ≠ .returned ∧ kind = .subtask ∨
      h' ≠ k ∧ s.table h' = some (.subtask op st) := by
    intro h' op st ht
    by_cases hj : h' = k
    · rw [hj, hself] at ht
      rcases hw with ⟨hkind, st', hst, rfl⟩ | ⟨-, rfl⟩
      · cases ht
        exact Or.inl ⟨hj, rfl, hst, hkind⟩
      · cases ht
    · rw [hother h' hj] at ht
      exact Or.inr ⟨hj, ht⟩
  have hstay : ∀ h' op st, s.table h' = some (.subtask op st) → h' ≠ k := by
    rintro h' op st ht rfl
    rcases hk with hk | hk <;> cases hk.symm.trans ht
  show Inv s'
  refine ⟨h.calm, fun j op => ?_, fun _ => rfl, fun j op st ht => ?_, fun j op ht => ?_,
    fun j op ht => ?_, fun j hp => ?_, fun op o ho => ?_, fun op o ho ht => ?_,
    fun j op st ht => ?_, fun op o ho hkd hno => ?_, fun op hle => ?_, fun hp => absurd hp hphase⟩
  · show (j, op) ∈ (State.addTaskToWaitables _ k s.nextOp).waitables.getD [] ↔ _
    rw [State.mem_addTaskToWaitables]
    by_cases hj : j = k
    · subst hj
      rw [hflight op]
      simp
    · rw [State.inFlight_congr (hother j hj), ← h.entry j op]
      show j ≠ k ∧ (j, op) ∈ s.waitables.getD [] ∨ j = k ∧ op = s.nextOp ↔ _
      simp [hj]
  · rcases hkeep j op st ht with ⟨rfl, rfl, hst, rfl⟩ | ⟨hj, ht⟩
    · exact ⟨_, hnewOp, rfl, rfl, by simpa using hst⟩
    · obtain ⟨o, ho, hrest⟩ := h.subtask j op st ht
      exact ⟨o, (hops op (hne op o ho)).trans ho, hrest⟩
  · by_cases hj : j = k
    · rw [hj, hself] at ht
      rcases hw with ⟨-, st, -, rfl⟩ | ⟨rfl, rfl⟩
      · cases ht
      · cases ht
        exact ⟨_, hnewOp, rfl, hj.symm, rfl⟩
    · rw [hother j hj] at ht
      obtain ⟨o, ho, hrest⟩ := h.stream j op ht
      exact ⟨o, (hops op (hne op o ho)).trans ho, hrest⟩
  · rcases hkeep j op .returned ht with ⟨-, -, hst, -⟩ | ⟨-, ht⟩
    · exact absurd rfl hst
    · exact h.returned j op ht
  · obtain ⟨op, ht⟩ := h.pending j hp
    exact ⟨op, (hother j (hstay j op _ ht)).trans ht⟩
  · by_cases heq : op = s.nextOp
    · rw [heq, hnewOp] at ho
      cases ho
      rfl
    · rw [hops op heq] at ho
      exact h.resolved op o ho
  · by_cases heq : op = s.nextOp
    · subst heq
      rw [hnewOp] at ho
      cases ho
      exact (hflight _).mpr rfl
    · rw [hops op heq] at ho
      have hf := h.busy op o ho ht
      have hj : o.waitable ≠ k := by
        intro hj
        rw [hj] at hf
        exact State.not_inFlight hk hf
      exact (State.inFlight_congr (hother _ hj)).mpr hf
  · rcases hkeep j op st ht with ⟨-, rfl, -, -⟩ | ⟨-, ht⟩
    · exact (h.fresh _ (Nat.le_refl _)).2
    · exact h.undropped j op st ht
  · by_cases heq : op = s.nextOp
    · subst heq
      rw [hnewOp] at ho
      cases ho
      rcases hw with ⟨-, st, -, rfl⟩ | ⟨rfl, -⟩
      · exact absurd hself (hno k st)
      · cases hkd
    · rw [hops op heq] at ho
      refine h.dropped op o ho hkd fun j st ht => hno j st ?_
      exact (hother j (hstay j op st ht)).trans ht
  · have hlt : s.nextOp ≤ op := Nat.le_of_succ_le hle
    exact ⟨(hops op (Nat.ne_of_gt hle)).trans (h.fresh op hlt).1, (h.fresh op hlt).2⟩

theorem taskFromStatus (h : Inv s) {status : Nat} (hrun : s.Running) (hst : s.CallStatus status) :
    ∃ s', s.taskFromStatus status = .ok s' ∧ Inv s' := by
  rcases hst with rfl | ⟨hst | hst, hfree⟩
  · exact ⟨_, rfl, h.immediate rfl rfl rfl⟩
  · refine ⟨_, by rw [State.taskFromStatus, if_pos hst], h.start hrun (Or.inl hfree)
      (Or.inl ⟨rfl, .starting, by simp, rfl⟩)⟩
  · have hne : ¬ state status = 0 := by omega
    refine ⟨_, by rw [State.taskFromStatus, if_neg hne, if_pos hst], h.start hrun (Or.inl hfree)
      (Or.inl ⟨rfl, .started, by simp, rfl⟩)⟩

theorem copyInternal (h : Inv s) {k status : Nat} (hrun : s.Running)
    (hk : s.table k = some (.stream none)) : Inv (s.copyInternal k status) := by
  rw [State.copyInternal]
  split
  · exact h
  · split
    · exact h.start hrun (Or.inr hk) (Or.inr ⟨rfl, rfl⟩)
    · split
      · exact h.immediate rfl rfl rfl
      · exact h

/-! ## Ends come and go -/

/-- The table changes at an index where nothing is in flight. -/
theorem idle (h : Inv s) {k : Nat} {w : Option Waitable} (f : Nat → Bool)
    (hk : s.table k = none ∨ s.table k = some (.stream none))
    (hw : w = none ∨ w = some (.stream none)) :
    Inv { s.setTable k w with otherSideDropped := f } := by
  have hold : ∀ j x, Function.update s.table k w j = some x →
      s.table j = some x ∨ x = .stream none := by
    intro j x hx
    by_cases hj : j = k
    · rw [hj, Function.update_self] at hx
      rcases hw with rfl | rfl
      · cases hx
      · exact Or.inr (Option.some.inj hx).symm
    · rw [Function.update_of_ne hj] at hx
      exact Or.inl hx
  have hstay : ∀ j x, s.table j = some x → x ≠ .stream none →
      Function.update s.table k w j = some x := by
    intro j x hx hne
    rw [Function.update_of_ne, hx]
    rintro rfl
    rcases hk with hk | hk <;> cases hk.symm.trans hx
    exact hne rfl
  have hflight : ∀ j op, State.InFlight { s.setTable k w with otherSideDropped := f } j op ↔
      s.InFlight j op := by
    intro j op
    constructor
    · rintro (⟨st, ht, hst⟩ | ht)
      · rcases hold j _ ht with ht | ht
        · exact Or.inl ⟨st, ht, hst⟩
        · cases ht
      · rcases hold j _ ht with ht | ht
        · exact Or.inr ht
        · cases ht
    · rintro (⟨st, ht, hst⟩ | ht)
      · exact Or.inl ⟨st, hstay j _ ht (by simp), hst⟩
      · exact Or.inr (hstay j _ ht (by simp))
  refine { h with
    entry := fun j op => (h.entry j op).trans (hflight j op).symm
    subtask := fun j op st ht => ?_
    stream := fun j op ht => ?_
    returned := fun j op ht => ?_
    pending := fun j hp => ?_
    busy := fun op o ho ht => (hflight _ op).mpr (h.busy op o ho ht)
    undropped := fun j op st ht => ?_
    dropped := fun op o ho hk hno => h.dropped op o ho hk fun j st ht => ?_ }
  · rcases hold j _ ht with ht | ht
    · exact h.subtask j op st ht
    · cases ht
  · rcases hold j _ ht with ht | ht
    · exact h.stream j op ht
    · cases ht
  · rcases hold j _ ht with ht | ht
    · exact h.returned j op ht
    · cases ht
  · obtain ⟨op, ht⟩ := h.pending j hp
    exact ⟨op, hstay j _ ht (by simp)⟩
  · rcases hold j _ ht with ht | ht
    · exact h.undropped j op st ht
    · cases ht
  · exact hno j st (hstay j _ ht (by simp))

/-! ## Operations end -/

/-- The host's last word is passed on to the operation. -/
theorem settle (h : Inv s) {k op : Nat} {o r : Op} {w : Waitable} {p : Phase}
    (f : Nat → Bool) (hp : s.phase = .waiting) (hf : s.InFlight k op) (ho : s.ops op = some o)
    (hkind : r.kind = o.kind) (hwait : r.waitable = o.waitable) (hterm : r.terminal = true)
    (hres : r.resolutions.length = 1)
    (hw : o.kind = .subtask ∧ w = .subtask op .returned ∧ p = .callback (some k) ∨
      o.kind = .copy ∧ w = .stream none ∧ p = .callback none) :
    Inv { s.remove k with
      ops := Function.update s.ops op (some r)
      table := Function.update s.table k (some w)
      phase := p
      otherSideDropped := f } := by
  obtain ⟨o₁, ho₁, -, hwk, hopen, -⟩ := h.inFlight hf
  obtain rfl : o₁ = o := Option.some.inj (ho₁.symm.trans ho)
  let s' : State := { s.remove k with
    ops := Function.update s.ops op (some r)
    table := Function.update s.table k (some w)
    phase := p
    otherSideDropped := f }
  show Inv s'
  have hself : s'.table k = some w := Function.update_self ..
  have hother : ∀ j, j ≠ k → s'.table j = s.table j := fun j hj => Function.update_of_ne hj ..
  have hop : s'.ops op = some r := Function.update_self ..
  have hops : ∀ q, q ≠ op → s'.ops q = s.ops q := fun q hq => Function.update_of_ne hq ..
  have hgone : ∀ q, ¬ s'.InFlight k q := by
    rintro q (⟨st, ht, hst⟩ | ht)
    · rcases hw with ⟨-, rfl, -⟩ | ⟨-, rfl, -⟩ <;> cases hself.symm.trans ht
      exact hst rfl
    · rcases hw with ⟨-, rfl, -⟩ | ⟨-, rfl, -⟩ <;> cases hself.symm.trans ht
  -- the operation has one place in the table
  have hplace : ∀ j q st, s.table j = some (.subtask q st) → q = op → j = k := by
    rintro j q st ht rfl
    obtain ⟨o₂, ho₂, -, hw₂, -⟩ := h.subtask j q st ht
    obtain rfl : o₂ = o₁ := Option.some.inj (ho₂.symm.trans ho)
    exact hw₂.symm.trans hwk
  have hplace' : ∀ j q, s.table j = some (.stream (some q)) → q = op → j = k := by
    rintro j q ht rfl
    obtain ⟨o₂, ho₂, -, hw₂, -⟩ := h.stream j q ht
    obtain rfl : o₂ = o₁ := Option.some.inj (ho₂.symm.trans ho)
    exact hw₂.symm.trans hwk
  have hkeep : ∀ j q st, s'.table j = some (.subtask q st) →
      j = k ∧ q = op ∧ st = .returned ∧ o₁.kind = .subtask ∧ p = .callback (some k) ∨
      j ≠ k ∧ s.table j = some (.subtask q st) := by
    intro j q st ht
    by_cases hj : j = k
    · rw [hj, hself] at ht
      rcases hw with ⟨hk, rfl, hph⟩ | ⟨-, rfl, -⟩ <;> cases ht
      exact Or.inl ⟨hj, rfl, rfl, hk, hph⟩
    · rw [hother j hj] at ht
      exact Or.inr ⟨hj, ht⟩
  refine ⟨h.calm, fun j q => ?_, fun hne => h.context fun hnil => hne ?_, fun j q st ht => ?_,
    fun j q ht => ?_, fun j q ht => ?_, fun j hph => ?_, fun q o₂ ho₂ => ?_,
    fun q o₂ ho₂ ht => ?_, fun j q st ht => ?_, fun q o₂ ho₂ hk hno => ?_, fun q hle => ?_,
    fun hph => ?_⟩
  · show (j, q) ∈ (s.remove k).waitables.getD [] ↔ _
    rw [State.mem_remove]
    by_cases hj : j = k
    · subst hj
      exact ⟨fun hm => absurd rfl hm.1, fun hm => absurd hm (hgone q)⟩
    · rw [State.inFlight_congr (hother j hj), h.entry j q]
      exact ⟨fun hm => hm.2, fun hm => ⟨hj, hm⟩⟩
  · show (s.remove k).waitables.getD [] = []
    rw [State.getD_remove, hnil]
    rfl
  · rcases hkeep j q st ht with ⟨rfl, rfl, rfl, hk, -⟩ | ⟨hj, ht⟩
    · exact ⟨r, hop, hkind.trans hk, hwait.trans hwk, by simp [hterm]⟩
    · obtain ⟨o₂, ho₂, hrest⟩ := h.subtask j q st ht
      exact ⟨o₂, (hops q fun heq => hj (hplace j q st ht heq)).trans ho₂, hrest⟩
  · by_cases hj : j = k
    · rw [hj, hself] at ht
      rcases hw with ⟨-, rfl, -⟩ | ⟨-, rfl, -⟩ <;> cases ht
    · rw [hother j hj] at ht
      obtain ⟨o₂, ho₂, hrest⟩ := h.stream j q ht
      exact ⟨o₂, (hops q fun heq => hj (hplace' j q ht heq)).trans ho₂, hrest⟩
  · rcases hkeep j q .returned ht with ⟨rfl, -, -, -, hph⟩ | ⟨-, ht⟩
    · exact hph
    · cases hp.symm.trans (h.returned j q ht)
  · rcases hw with ⟨-, rfl, rfl⟩ | ⟨-, -, rfl⟩
    · cases hph
      exact ⟨op, hself⟩
    · cases hph
  · by_cases hq : q = op
    · rw [hq, hop] at ho₂
      cases ho₂
      rw [hres, hterm, if_pos rfl]
    · rw [hops q hq] at ho₂
      exact h.resolved q o₂ ho₂
  · by_cases hq : q = op
    · rw [hq, hop] at ho₂
      cases ho₂
      cases hterm.symm.trans ht
    · rw [hops q hq] at ho₂
      have hf₂ := h.busy q o₂ ho₂ ht
      have hj : o₂.waitable ≠ k := by
        intro hj
        rw [hj] at hf₂
        exact hq (hf₂.op_eq hf)
      exact (State.inFlight_congr (hother _ hj)).mpr hf₂
  · rcases hkeep j q st ht with ⟨-, rfl, -, hk, -⟩ | ⟨-, ht⟩
    · rcases hf with ⟨st', ht', -⟩ | ht'
      · exact h.undropped k q st' ht'
      · obtain ⟨o₂, ho₂, hk₂, -⟩ := h.stream k q ht'
        obtain rfl : o₂ = o₁ := Option.some.inj (ho₂.symm.trans ho)
        cases hk₂.symm.trans hk
    · exact h.undropped j q st ht
  · by_cases hq : q = op
    · subst hq
      rw [hop] at ho₂
      cases ho₂
      rcases hw with ⟨-, rfl, -⟩ | ⟨hk₂, -, -⟩
      · exact absurd hself (hno k .returned)
      · cases hk₂.symm.trans (hkind.symm.trans hk)
    · rw [hops q hq] at ho₂
      refine h.dropped q o₂ ho₂ hk fun j st ht => ?_
      by_cases hj : j = k
      · -- the table has one operation at the index
        subst hj
        rcases hf with ⟨st', ht', -⟩ | ht' <;> cases ht'.symm.trans ht
        exact hq rfl
      · exact hno j st ((hother j hj).trans ht)
  · have hq : q ≠ op := by
      rintro rfl
      rw [(h.fresh q hle).1] at ho
      cases ho
    exact ⟨(hops q hq).trans (h.fresh q hle).1, (h.fresh q hle).2⟩
  · rcases hw with ⟨-, -, rfl⟩ | ⟨-, -, rfl⟩ <;> cases hph

/-- `Callback` finds the operation of a due event. -/
theorem callback_eq (h : Inv s) {e : EventWaitable} {op : Nat} (hf : s.InFlight e.waitable op) :
    (s.deliver e).callback e = (do
      let s₁ ← if e.isDropped then (s.deliver e).noteDropped op else .ok (s.deliver e)
      if e.isCompleted || e.isDropped then
        (s₁.remove e.waitable).resolve e op
      else
        .error .notImplemented) := by
  obtain ⟨w, hw, hfind⟩ := h.find hf
  have hmem := (h.entry _ op).mpr hf
  have hctx : s.context = true := h.context (List.ne_nil_of_mem hmem)
  have hdeliver : (s.deliver e).context = s.context ∧ (s.deliver e).waitables = s.waitables := by
    rw [State.deliver]
    split
    · split
      · split <;> exact ⟨rfl, rfl⟩
      · exact ⟨rfl, rfl⟩
    · split <;> exact ⟨rfl, rfl⟩
    · exact ⟨rfl, rfl⟩
  rw [State.callback, if_neg (by rw [hdeliver.1, hctx]; simp), hdeliver.2, hw]
  dsimp only
  rw [hfind]

/-- The end of a subtask. -/
theorem subtaskEvent (h : Inv s) {e : EventWaitable} {op : Nat} {st : SubtaskState}
    (hp : s.phase = .waiting) (ht : s.table e.waitable = some (.subtask op st))
    (hne : st ≠ .returned) (hcode : e.eventCode = .subtask) (hstate : state e.code = 2) :
    ∃ s', (s.deliver e).callback e = .ok s' ∧ Inv s' := by
  have hf : s.InFlight e.waitable op := Or.inl ⟨st, ht, hne⟩
  obtain ⟨o, ho, -, -, -, hres⟩ := h.inFlight hf
  have hkind : o.kind = .subtask := by
    obtain ⟨o₁, ho₁, hk, -⟩ := h.subtask _ op st ht
    exact (Option.some.inj (ho₁.symm.trans ho)) ▸ hk
  have hsub : e.isSubtask = true := by rw [EventWaitable.isSubtask, hcode]; rfl
  have hdropped : e.isDropped = false := by simp [EventWaitable.isDropped, hsub]
  have hcompleted : e.isCompleted = true := by
    simp [EventWaitable.isCompleted, hsub, hstate]
  have hdeliver : s.deliver e = (s.setTable e.waitable (some (.subtask op .returned))).setOp op
      { o with terminal := true } := by
    rw [State.deliver, ht]
    dsimp only
    rw [if_pos hstate, ho]
  refine ⟨_, ?_, h.settle (r := ⟨o.kind, o.waitable, false, [.result (waitableCount e.code)], true⟩)
    (p := .callback (some e.waitable)) s.otherSideDropped hp hf ho rfl rfl rfl rfl
    (Or.inl ⟨hkind, rfl, rfl⟩)⟩
  rw [h.callback_eq hf, hdropped, hcompleted, hdeliver]
  simp [State.resolve, State.setResult, State.setOp, State.setTable, State.remove, hsub, hstate,
    hres, bind, Except.bind]

/-- The end of a copy. -/
theorem copyEvent (h : Inv s) {e : EventWaitable} {op : Nat} (hp : s.phase = .waiting)
    (ht : s.table e.waitable = some (.stream (some op))) (hcode : e.eventCode ≠ .subtask)
    (hstate : state e.code ≤ 1) : ∃ s', (s.deliver e).callback e = .ok s' ∧ Inv s' := by
  have hf : s.InFlight e.waitable op := Or.inr ht
  obtain ⟨o, ho, -, hwait, -, hres⟩ := h.inFlight hf
  have hkind : o.kind = .copy := by
    obtain ⟨o₁, ho₁, hk, -⟩ := h.stream _ op ht
    exact (Option.some.inj (ho₁.symm.trans ho)) ▸ hk
  have hsub : e.isSubtask = false := by
    rw [EventWaitable.isSubtask]
    simpa using hcode
  have hdeliver : s.deliver e = (s.setTable e.waitable (some (.stream none))).setOp op
      { o with terminal := true } := by
    rw [State.deliver, ht]
    dsimp only
    rw [ho]
  rcases Nat.le_one_iff_eq_zero_or_eq_one.mp hstate with hstate | hstate
  · have hdropped : e.isDropped = false := by simp [EventWaitable.isDropped, hstate]
    have hcompleted : e.isCompleted = true := by
      simp [EventWaitable.isCompleted, hsub, hstate]
    refine ⟨_, ?_, h.settle (r := ⟨o.kind, o.waitable, false, [.result (waitableCount e.code)],
      true⟩) (p := .callback none) s.otherSideDropped hp hf ho rfl rfl rfl rfl
      (Or.inr ⟨hkind, rfl, rfl⟩)⟩
    rw [h.callback_eq hf, hdropped, hcompleted, hdeliver]
    simp [State.resolve, State.setResult, State.setOp, State.setTable, State.remove, hsub,
      hdropped, hres, bind, Except.bind]
  · have hdropped : e.isDropped = true := by simp [EventWaitable.isDropped, hsub, hstate]
    refine ⟨_, ?_, h.settle (r := ⟨o.kind, o.waitable, o.canCancel, [.streamDropped], true⟩)
      (p := .callback none) (Function.update s.otherSideDropped o.waitable true) hp hf ho rfl
      rfl rfl rfl (Or.inr ⟨hkind, rfl, rfl⟩)⟩
    rw [h.callback_eq hf, hdropped, hdeliver]
    simp [State.noteDropped, State.resolve, State.setException, State.setOp, State.setTable,
      State.remove, hsub, hdropped, hres, hkind, bind, Except.bind]

theorem event (h : Inv s) {e : EventWaitable} (hp : s.phase = .waiting) (hdue : s.Due e)
    (hs : s.Sound (.event e)) : ∃ s', (s.deliver e).callback e = .ok s' ∧ Inv s' := by
  rw [State.Due] at hdue
  rw [State.Sound] at hs
  split at hdue
  · next op st ht =>
      obtain ⟨hcode, hst⟩ := hdue
      have hsub : e.isSubtask = true := by rw [EventWaitable.isSubtask, hcode]; rfl
      rw [if_pos hsub] at hs
      rcases hst with ⟨hst, -⟩ | ⟨hst, hne⟩
      · exact absurd hst hs
      · exact h.subtaskEvent hp ht hne hcode hst
  · next op ht =>
      obtain ⟨hcode, hst⟩ := hdue
      have hne : e.eventCode ≠ .subtask := by
        rintro heq
        rcases hcode with hc | hc | hc | hc <;> cases heq.symm.trans hc
      rw [EventWaitable.isSubtask, if_neg (by simpa using hne)] at hs
      exact h.copyEvent hp ht hne (by omega)
  · exact hdue.elim

/-! ## `Callback` returns -/

theorem counted (h : Inv s) (hp : ∀ k op, s.table k ≠ some (.subtask op .returned)) :
    Inv s.count := by
  rw [State.count]
  split
  · next hnil =>
      exact { h with
        context := fun hne => absurd hnil hne
        returned := fun k op ht => absurd ht (hp k op)
        pending := fun k hph => by cases hph
        exits := fun _ => hnil }
  · exact { h with
      returned := fun k op ht => absurd ht (hp k op)
      pending := fun k hph => by cases hph
      exits := fun hph => by cases hph }

/-- The returned subtask is dropped. -/
theorem subtaskDrop (h : Inv s) {k : Nat} (hp : s.phase = .callback (some k)) :
    ∃ s', s.subtaskDrop k = .ok s' ∧ Inv { s' with phase := .callback none } ∧
      ∀ j op, s'.table j ≠ some (.subtask op .returned) := by
  obtain ⟨op, ht⟩ := h.pending k hp
  obtain ⟨o, ho, hkind, hwait, hterm⟩ := h.subtask k op _ ht
  have hold : ∀ j x, Function.update s.table k none j = some x → j ≠ k ∧ s.table j = some x := by
    intro j x hx
    by_cases hj : j = k
    · rw [hj, Function.update_self] at hx
      cases hx
    · rw [Function.update_of_ne hj] at hx
      exact ⟨hj, hx⟩
  have hothers : ∀ j q st, Function.update s.table k none j = some (.subtask q st) → q ≠ op := by
    rintro j q st hx rfl
    obtain ⟨hj, hx⟩ := hold j _ hx
    obtain ⟨o₁, ho₁, -, hw₁, -⟩ := h.subtask j q st hx
    obtain rfl : o₁ = o := Option.some.inj (ho₁.symm.trans ho)
    exact hj (hw₁.symm.trans hwait)
  have hnone : ∀ j q, Function.update s.table k none j ≠ some (.subtask q .returned) := by
    intro j q hx
    obtain ⟨hj, hx⟩ := hold j _ hx
    cases hp.symm.trans (h.returned j q hx)
    exact hj rfl
  have hflight : ∀ j q, State.InFlight { s.setTable k none with
      dropped := s.dropped ++ [op], phase := .callback none } j q ↔ s.InFlight j q := by
    intro j q
    by_cases hj : j = k
    · subst hj
      constructor
      · rintro (⟨st, hx, -⟩ | hx)
        · exact absurd rfl (hold j _ hx).1
        · exact absurd rfl (hold j _ hx).1
      · rintro (⟨st, hx, hst⟩ | hx) <;> cases ht.symm.trans hx
        exact absurd rfl hst
    · exact State.inFlight_congr (Function.update_of_ne hj ..)
  have hcount : ∀ q, (s.dropped ++ [op]).count q = s.dropped.count q + if q = op then 1 else 0 := by
    intro q
    rw [List.count_append, List.count_singleton]
    by_cases hq : q = op
    · simp [hq]
    · simp [hq, Ne.symm hq]
  have hok : s.subtaskDrop k = .ok { s.setTable k none with dropped := s.dropped ++ [op] } := by
    rw [State.subtaskDrop, ht]
  refine ⟨_, hok, ?_, hnone⟩
  refine { h with
    entry := fun j q => (h.entry j q).trans (hflight j q).symm
    subtask := fun j q st hx => h.subtask j q st (hold j _ hx).2
    stream := fun j q hx => h.stream j q (hold j _ hx).2
    returned := fun j q hx => absurd hx (hnone j q)
    pending := fun j hph => by cases hph
    busy := fun q o₁ ho₁ ht₁ => (hflight _ q).mpr (h.busy q o₁ ho₁ ht₁)
    undropped := fun j q st hx => ?_
    dropped := fun q o₁ ho₁ hk hno => ?_
    fresh := fun q hle => ⟨(h.fresh q hle).1, ?_⟩
    exits := fun hph => by cases hph }
  · show (s.dropped ++ [op]).count q = 0
    rw [hcount, if_neg (hothers j q st hx), h.undropped j q st (hold j _ hx).2]
  · show (s.dropped ++ [op]).count q = 1
    rw [hcount]
    by_cases hq : q = op
    · rw [if_pos hq, hq, h.undropped k op _ ht]
    · rw [if_neg hq, h.dropped q o₁ ho₁ hk]
      intro j st hx
      refine hno j st ?_
      show Function.update s.table k none j = _
      rw [Function.update_of_ne, hx]
      rintro rfl
      cases ht.symm.trans hx
      exact hq rfl
  · show (s.dropped ++ [op]).count q = 0
    have hq : q ≠ op := by
      rintro rfl
      rw [(h.fresh q hle).1] at ho
      cases ho
    rw [hcount, if_neg hq, (h.fresh q hle).2]

theorem finish (h : Inv s) {d : Option Nat} (hp : s.phase = .callback d) :
    ∃ s', s.finish = .ok s' ∧ Inv s' := by
  cases d with
  | none =>
    refine ⟨s.count, by rw [State.finish, hp], h.counted fun k op ht => ?_⟩
    cases hp.symm.trans (h.returned k op ht)
  | some k =>
    obtain ⟨s₁, hok, h₁, hnone⟩ := h.subtaskDrop hp
    refine ⟨s₁.count, by rw [State.finish, hp]; dsimp only; rw [hok]; rfl, ?_⟩
    have hcounted := h₁.counted hnone
    rw [State.count] at hcounted ⊢
    exact hcounted

/-! ## Runs -/

theorem returns (h : Inv s) (hp : s.phase = .export) {p : Phase} (hpl : ∀ d, p ≠ .callback d)
    (hex : p ≠ .exited) : Inv { s with phase := p } :=
  { h with
    returned := fun k op ht => by cases hp.symm.trans (h.returned k op ht)
    pending := fun k hph => absurd hph (hpl _)
    exits := fun hph => absurd hph hex }

theorem exec (h : Inv s) (i : Event) (ha : s.Allowed i) (hs : s.Sound i) :
    ∃ s', s.exec i = .ok s' ∧ Inv s' := by
  obtain ⟨-, ha⟩ := ha
  cases i with
  | importCall status => exact h.taskFromStatus ha.1 ha.2
  | copy k status => exact ⟨_, rfl, h.copyInternal ha.1 ha.2.1⟩
  | cancel op =>
    obtain ⟨-, o, ho, -⟩ := ha
    refine ⟨s, ?_, h⟩
    rw [State.exec, State.cancel, ho]
    dsimp only
    rcases hs o ho with hc | hk
    · rw [if_pos hc]
    · rw [if_pos hk]
      split <;> rfl
  | acquire k => exact ⟨_, rfl, h.idle _ (Or.inl ha.2) (Or.inr rfl)⟩
  | release k => exact ⟨_, rfl, h.idle s.otherSideDropped (Or.inr ha.2) (Or.inl rfl)⟩
  | returns completed =>
    refine ⟨_, rfl, h.returns ha.1 ?_ ?_⟩ <;> cases completed <;> simp
  | event e => exact h.event ha.1 ha.2 hs
  | finish =>
    obtain ⟨d, hp⟩ := ha
    exact h.finish hp

theorem kept (h : Inv s) : s.Kept where
  calm := h.calm
  entry := h.entry
  terminal op o ho := by
    constructor
    · exact fun ht => ⟨o.waitable, h.busy op o ho ht⟩
    · rintro ⟨k, hf⟩
      obtain ⟨o₁, ho₁, -, -, ht, -⟩ := h.inFlight hf
      exact (Option.some.inj (ho₁.symm.trans ho)) ▸ ht
  resolved := h.resolved
  subtasks op o ho hk := by
    by_cases hex : ∃ k st, s.table k = some (.subtask op st)
    · obtain ⟨k, st, ht⟩ := hex
      refine Or.inl ⟨⟨k, st, ht, ?_⟩, h.undropped k op st ht⟩
      rintro rfl
      exact h.returned k op ht
    · refine Or.inr ⟨hex, ?_, h.dropped op o ho hk fun k st ht => hex ⟨k, st, ht⟩⟩
      cases hterm : o.terminal with
      | true => rfl
      | false =>
        rcases h.busy op o ho hterm with ⟨st, ht, -⟩ | ht
        · exact absurd ⟨_, st, ht⟩ hex
        · obtain ⟨o₁, ho₁, hk₁, -⟩ := h.stream _ op ht
          obtain rfl : o₁ = o := Option.some.inj (ho₁.symm.trans ho)
          cases hk.symm.trans hk₁
  exits hp k op hf := by
    have hmem := (h.entry k op).mpr hf
    rw [h.exits hp] at hmem
    cases hmem

theorem reachable (h : soundTask.Reachable s) : Inv s := by
  refine h.invariant ?_ fun s i s' hi ha he => ?_
  · rintro s rfl
    exact initial
  · obtain ⟨s₁, hok, h₁⟩ := hi.exec i ha.1 ha.2
    have heq : s.execute i = s' := Except.ok.inj he
    rw [State.execute, hok] at heq
    exact heq ▸ h₁

end Inv

/-- While nothing is cancelled and no import is reported as started, entries,
results and subtasks are kept, and nothing is thrown. -/
theorem component_task_kept {s : State} (h : soundTask.Reachable s) : s.Kept :=
  (Inv.reachable h).kept

/-! ## A subtask that starts -/

/-- The export calls an import whose subtask is starting, and waits. -/
def waitingForStart : State :=
  { State.initial.execute (.importCall (16 * 1)) with phase := .waiting }

theorem waitingForStart_reachable : soundTask.Reachable waitingForStart := by
  have h₁ : soundTask.Reachable (State.initial.execute (.importCall (16 * 1))) :=
    (System.Reachable.init State.initial rfl).step _ _ (.importCall (16 * 1))
      ⟨⟨rfl, Or.inl rfl, Or.inr ⟨Or.inl rfl, rfl⟩⟩, trivial⟩ rfl
  exact h₁.step _ _ (.returns false) ⟨⟨rfl, rfl, Or.inr rfl⟩, trivial⟩ rfl

/-- The subtask returns, is dropped once, and the task exits. -/
theorem component_task_kept_returned : ∃ s, soundTask.Reachable s ∧ s.phase = .exited ∧
    s.dropped = [0] ∧ s.Kept := by
  have h₁ : soundTask.Reachable (waitingForStart.execute (.event ⟨.subtask, 1, 2⟩)) :=
    waitingForStart_reachable.step _ _ (.event ⟨.subtask, 1, 2⟩)
      ⟨⟨rfl, rfl, rfl, Or.inr ⟨rfl, by decide⟩⟩, show state 2 ≠ 1 by decide⟩ rfl
  have h₂ := h₁.step _ _ Event.finish ⟨⟨rfl, _, rfl⟩, trivial⟩ rfl
  exact ⟨_, h₂, rfl, rfl, component_task_kept h₂⟩

/-- Told that the subtask has started, `Callback` throws. -/
theorem started_not_kept : ¬ ∀ s, componentTask.Reachable s → s.Kept := by
  intro hall
  have hwait : componentTask.Reachable waitingForStart :=
    waitingForStart_reachable.mono (S := soundTask) (fun _ h => h) (fun _ _ h => h.1) rfl
  have hkept := hall _ (hwait.step _ _ (.event ⟨.subtask, 1, 1⟩)
    ⟨rfl, rfl, rfl, Or.inl ⟨rfl, rfl⟩⟩ rfl)
  cases hkept.calm

/-- A read that is cancelled leaves its entry behind. -/
theorem cancelled_not_kept : ∃ s, componentTask.Reachable s ∧ ¬ s.Kept := by
  have h₁ : componentTask.Reachable (State.initial.execute (.acquire 5)) :=
    (System.Reachable.init State.initial rfl).step _ _ (.acquire 5) ⟨rfl, Or.inl rfl, rfl⟩ rfl
  have h₂ := h₁.step _ _ (Event.copy 5 blocked) ⟨rfl, Or.inl rfl, rfl, Or.inl rfl⟩ rfl
  have h₃ := h₂.step _ _ (Event.cancel 0) ⟨rfl, Or.inl rfl, _, rfl, by decide⟩ rfl
  refine ⟨_, h₃, fun hkept => ?_⟩
  rcases (hkept.entry 5 0).mp (List.mem_singleton.mpr rfl) with ⟨st, ht, -⟩ | ht <;> cases ht

end WitBindgen.CSharp.Async
