import WitBindgen.CSharp.RepTable
import Mathlib.Data.List.Nodup

/-!
# Runs of the table of representations

The methods as `RepTable.cs` has them, one read or write of the table after the other:
what is written before an exception stays written, and an index may be any `nint`. A
caller that catches the exceptions can call them in any order. The reps that it holds are
those that `Add` has returned and that it has not yet given to `Remove`.
-/

namespace WitBindgen.CSharp.RepTable

variable {α β : Type}

/-! ## Methods -/

/-- A method returns or throws, and leaves a table either way. -/
abbrev Method (α β : Type) := ExceptT Fault (StateM (RepTable α)) β

/-- `list[(int)rep]`. Where the generated code runs, a `nint` is an `int`. -/
def item (rep : Int) : Method α (Slot α) := do
  let t ← getThe (RepTable α)
  match if rep < 0 then none else t.list[rep.toNat]? with
  | some slot => pure slot
  | none => throw .outOfRange

/-- `list[(int)rep] = slot`. -/
def setItem (rep : Int) (slot : Slot α) : Method α Unit := do
  let _ ← item rep
  modifyThe (RepTable α) fun t => { t with list := t.list.set rep.toNat slot }

def callAdd (v : α) : Method α Int := do
  let t ← getThe (RepTable α)
  match t.firstVacant with
  | some rep =>
    match ← item (rep : Int) with
    | .vacant next =>
      modifyThe (RepTable α) fun t => { t with firstVacant := next }
      setItem (rep : Int) (.value v)
      pure (rep : Int)
    | .value _ => throw .invalidCast
  | none =>
    modifyThe (RepTable α) fun t => { t with list := t.list ++ [.value v] }
    pure (t.list.length : Int)

def callGet (rep : Int) : Method α α := do
  match ← item rep with
  | .vacant _ => throw .invalidRep
  | .value v => pure v

def callRemove (rep : Int) : Method α α := do
  let val ← callGet rep
  let t ← getThe (RepTable α)
  setItem rep (.vacant t.firstVacant)
  modifyThe (RepTable α) fun t => { t with firstVacant := some rep.toNat }
  pure val

/-- What a call returns or throws, and the table after it. -/
def Method.call (m : Method α β) (t : RepTable α) : Except Fault β × RepTable α := m.run t

theorem call_bind {γ : Type} (m : Method α β) (f : β → Method α γ) (t : RepTable α) :
    (m >>= f : Method α γ).call t =
      match m.call t with
      | (.ok b, t') => Method.call (f b) t'
      | (.error e, t') => (.error e, t') := by
  unfold Method.call
  show StateT.bind (ExceptT.run m) (ExceptT.bindCont f) t = _
  unfold StateT.bind
  rcases h : ExceptT.run m t with ⟨e | b, t'⟩
  · rfl
  · rfl

theorem call_pure (b : β) (t : RepTable α) : Method.call (pure b) t = (.ok b, t) := rfl

theorem call_get (t : RepTable α) :
    Method.call (getThe (RepTable α) : Method α _) t = (.ok t, t) := rfl

theorem call_modify (f : RepTable α → RepTable α) (t : RepTable α) :
    Method.call (modifyThe (RepTable α) f : Method α _) t = (.ok (), f t) := rfl

section
variable {t : RepTable α} {rep : Nat} {slot : Slot α}

theorem item_some (h : t.list[rep]? = some slot) :
    Method.call (item (rep : Int)) t = (.ok slot, t) := by
  unfold item
  have hneg : ¬ (rep : Int) < 0 := by omega
  rw [call_bind, call_get]
  simp only [if_neg hneg, Int.toNat_natCast, h]
  rfl

/-- There is no slot at the index. -/
theorem item_none {i : Int} (h : ∀ rep : Nat, i = rep → t.list[rep]? = none) :
    Method.call (item i) t = (.error .outOfRange, t) := by
  unfold item
  rw [call_bind, call_get]
  have hnone : (if i < 0 then none else t.list[i.toNat]?) = none := by
    split
    · rfl
    · exact h _ (by omega)
  simp only [hnone]
  rfl

theorem setItem_call (h : t.list[rep]? = some slot) (new : Slot α) :
    Method.call (setItem (rep : Int) new) t = (.ok (), { t with list := t.list.set rep new }) := by
  unfold setItem
  rw [call_bind, item_some h]
  simp only [call_modify, Int.toNat_natCast]

theorem callGet_call (t : RepTable α) (rep : Nat) :
    Method.call (callGet (rep : Int)) t = (t.get rep, t) := by
  unfold callGet RepTable.get
  rw [call_bind]
  cases h : t.list[rep]? with
  | none =>
    rw [item_none]
    rintro r hr
    rwa [← Int.ofNat_inj.mp hr]
  | some slot =>
    rw [item_some h]
    cases slot with
    | value v => rfl
    | vacant next => rfl

theorem callGet_negative {i : Int} (h : i < 0) :
    Method.call (callGet i) t = (.error .outOfRange, t) := by
  unfold callGet
  rw [call_bind, item_none]
  intro rep hrep
  omega

theorem callRemove_call (t : RepTable α) (rep : Nat) : Method.call (callRemove (rep : Int)) t =
    match t.remove rep with
    | .ok (val, t') => (.ok val, t')
    | .error e => (.error e, t) := by
  unfold callRemove RepTable.remove
  rw [call_bind, callGet_call]
  cases hg : t.get rep with
  | error e => rfl
  | ok val =>
    have hslot := list_of_lookup (get_eq_ok.mp hg)
    simp only [call_bind, call_get, setItem_call hslot, call_modify, call_pure,
      Int.toNat_natCast]
    rfl

theorem callAdd_call (t : RepTable α) (v : α) : Method.call (callAdd v) t =
    match t.add v with
    | .ok (rep, t') => (.ok (rep : Int), t')
    | .error e => (.error e, t) := by
  unfold callAdd RepTable.add
  rw [call_bind, call_get]
  cases hf : t.firstVacant with
  | none =>
    simp only
    rw [hf, call_bind, call_modify]
    simp only [call_pure, hf]
  | some rep =>
    simp only
    rw [hf, call_bind]
    cases hslot : t.list[rep]? with
    | none =>
      rw [item_none]
      rintro r hr
      rwa [← Int.ofNat_inj.mp hr]
    | some slot =>
      rw [item_some hslot]
      cases slot with
      | value w => rfl
      | vacant next =>
        have hslot' : ({ t with firstVacant := next } : RepTable α).list[rep]? =
            some (.vacant next) := hslot
        simp only [call_bind, call_modify, setItem_call hslot', call_pure]

end

/-! ## Calls in any order -/

inductive Op (α : Type) where
  | add (v : α)
  | get (rep : Int)
  | remove (rep : Int)
deriving DecidableEq

inductive Return (α : Type) where
  | rep (rep : Int)
  | value (v : α)
deriving DecidableEq

def Op.call : Op α → RepTable α → Except Fault (Return α) × RepTable α
  | .add v => Method.call do
      let rep ← callAdd v
      pure (.rep rep)
  | .get rep => Method.call do
      let v ← callGet rep
      pure (.value v)
  | .remove rep => Method.call do
      let v ← callRemove rep
      pure (.value v)

/-- The calls, each with what it returned or threw, and the table after them. -/
def run : List (Op α) → RepTable α → List (Op α × Except Fault (Return α)) × RepTable α
  | [], t => ([], t)
  | op :: ops, t =>
    let (result, t) := op.call t
    let (log, t) := run ops t
    ((op, result) :: log, t)

/-- The reps that a caller holds after one more call, with the values they were added for. -/
def held (reps : List (Int × α)) : Op α × Except Fault (Return α) → List (Int × α)
  | (.add v, .ok (.rep rep)) => (rep, v) :: reps
  | (.remove rep, .ok _) => reps.eraseP fun p => p.1 = rep
  | _ => reps

/-- The reps handed out and not yet removed. -/
def handedOut (log : List (Op α × Except Fault (Return α))) : List (Int × α) :=
  log.foldl held []

/-- The reps held are those at which the table has a value, each held once. -/
structure Holds (reps : List (Int × α)) (t : RepTable α) : Prop where
  wf : t.WF
  nodup : (reps.map Prod.fst).Nodup
  mem : ∀ rep v, (rep, v) ∈ reps ↔ ∃ n : Nat, rep = n ∧ t.lookup n = some v

namespace Holds

variable {reps : List (Int × α)} {t : RepTable α}

theorem new : Holds [] (RepTable.new : RepTable α) where
  wf := new_wf
  nodup := List.nodup_nil
  mem rep v := by
    constructor
    · intro h
      cases h
    · rintro ⟨n, -, h⟩
      cases h

/-- With distinct keys, the entry erased is the only one with its key. -/
theorem mem_eraseP_key {rep rep' : Int} {v : α} (hnodup : (reps.map Prod.fst).Nodup) :
    (rep', v) ∈ (reps.eraseP fun p => p.1 = rep) ↔ (rep', v) ∈ reps ∧ rep' ≠ rep := by
  induction reps with
  | nil => simp
  | cons p reps ih =>
    rw [List.map_cons, List.nodup_cons] at hnodup
    obtain ⟨hnotMem, hnodup⟩ := hnodup
    by_cases hp : p.1 = rep
    · rw [List.eraseP_cons_of_pos (by simpa using hp), List.mem_cons]
      constructor
      · intro hmem
        refine ⟨Or.inr hmem, ?_⟩
        rintro rfl
        exact hnotMem (List.mem_map.mpr ⟨_, hmem, hp.symm⟩)
      · rintro ⟨heq | hmem, hne⟩
        · exact absurd (by rw [← heq] at hp; exact hp) hne
        · exact hmem
    · rw [List.eraseP_cons_of_neg (by simpa using hp), List.mem_cons, List.mem_cons, ih hnodup]
      constructor
      · rintro (heq | ⟨hmem, hne⟩)
        · exact ⟨Or.inl heq, by rw [← heq] at hp; exact hp⟩
        · exact ⟨Or.inr hmem, hne⟩
      · rintro ⟨heq | hmem, hne⟩
        · exact Or.inl heq
        · exact Or.inr ⟨hmem, hne⟩

theorem not_held {n : Nat} (h : Holds reps t) (hn : t.lookup n = none) :
    (n : Int) ∉ reps.map Prod.fst := by
  intro hmem
  rw [List.mem_map] at hmem
  obtain ⟨⟨rep, v⟩, hmem, hrep⟩ := hmem
  obtain ⟨m, hm, hv⟩ := (h.mem rep v).mp hmem
  have hmn : m = n := Int.ofNat_inj.mp (hm.symm.trans hrep)
  rw [hmn, hn] at hv
  cases hv

/-- `Add` does not fail, and returns a rep that is not held. -/
theorem add (h : Holds reps t) (v : α) : ∃ rep t', (Op.add v).call t = (.ok (.rep rep), t') ∧
    rep ∉ reps.map Prod.fst ∧ Holds ((rep, v) :: reps) t' := by
  obtain ⟨n, t', hadd, hwf, hfree, hlookup⟩ := h.wf.add v
  refine ⟨n, t', ?_, h.not_held hfree, hwf, ?_, fun rep w => ?_⟩
  · show Method.call (callAdd v >>= _) t = _
    rw [call_bind, callAdd_call, hadd]
    rfl
  · rw [List.map_cons, List.nodup_cons]
    exact ⟨h.not_held hfree, h.nodup⟩
  · rw [List.mem_cons, h.mem, hlookup]
    constructor
    · rintro (heq | ⟨m, hm, hw⟩)
      · injection heq with hrep hw
        exact ⟨n, hrep, by rw [Function.update_self, hw]⟩
      · have hne : m ≠ n := by
          rintro rfl
          rw [hfree] at hw
          cases hw
        exact ⟨m, hm, by rw [Function.update_of_ne hne, hw]⟩
    · rintro ⟨m, hm, hw⟩
      by_cases hne : m = n
      · subst hne
        rw [Function.update_self] at hw
        injection hw with hw
        exact Or.inl (by rw [hm, hw])
      · rw [Function.update_of_ne hne] at hw
        exact Or.inr ⟨m, hm, hw⟩

theorem get_held (h : Holds reps t) {rep : Int} {v : α} (hmem : (rep, v) ∈ reps) :
    (Op.get rep).call t = (.ok (.value v), t) := by
  obtain ⟨n, rfl, hv⟩ := (h.mem rep v).mp hmem
  show Method.call (callGet (n : Int) >>= _) t = _
  rw [call_bind, callGet_call, get_eq_ok.mpr hv]
  rfl

/-- `Get` of anything else throws. -/
theorem callGet_other (h : Holds reps t) {rep : Int} (hmem : rep ∉ reps.map Prod.fst) :
    ∃ e, Method.call (callGet rep) t = (.error e, t) := by
  by_cases hneg : rep < 0
  · exact ⟨_, callGet_negative hneg⟩
  · obtain ⟨n, rfl⟩ := Int.eq_ofNat_of_zero_le (Int.not_lt.mp hneg)
    rw [callGet_call]
    cases hg : t.get n with
    | error e => exact ⟨e, rfl⟩
    | ok v =>
      refine absurd (List.mem_map.mpr ⟨((n : Int), v), ?_, rfl⟩) hmem
      exact (h.mem _ _).mpr ⟨n, rfl, get_eq_ok.mp hg⟩

theorem get_other (h : Holds reps t) {rep : Int} (hmem : rep ∉ reps.map Prod.fst) :
    ∃ e, (Op.get rep).call t = (.error e, t) := by
  obtain ⟨e, hcall⟩ := h.callGet_other hmem
  refine ⟨e, ?_⟩
  show Method.call (callGet rep >>= _) t = _
  rw [call_bind, hcall]

theorem remove_other (h : Holds reps t) {rep : Int} (hmem : rep ∉ reps.map Prod.fst) :
    ∃ e, (Op.remove rep).call t = (.error e, t) := by
  obtain ⟨e, hcall⟩ := h.callGet_other hmem
  refine ⟨e, ?_⟩
  show Method.call (callRemove rep >>= _) t = _
  unfold callRemove
  rw [call_bind, call_bind, hcall]

/-- `Remove` returns what the rep was added for, and the rep is no longer held. -/
theorem remove_held (h : Holds reps t) {rep : Int} {v : α} (hmem : (rep, v) ∈ reps) :
    ∃ t', (Op.remove rep).call t = (.ok (.value v), t') ∧
      Holds (reps.eraseP fun p => p.1 = rep) t' := by
  obtain ⟨n, rfl, hv⟩ := (h.mem rep v).mp hmem
  obtain ⟨t', hremove, hwf, hlookup⟩ := h.wf.remove hv
  refine ⟨t', ?_, hwf, (List.eraseP_sublist.map Prod.fst).nodup h.nodup, fun rep w => ?_⟩
  · show Method.call (callRemove (n : Int) >>= _) t = _
    rw [call_bind, callRemove_call, hremove]
    rfl
  · rw [mem_eraseP_key h.nodup, h.mem, hlookup]
    constructor
    · rintro ⟨⟨m, hm, hw⟩, hne⟩
      have hmn : m ≠ n := fun heq => hne (by rw [hm, heq])
      exact ⟨m, hm, by rw [Function.update_of_ne hmn, hw]⟩
    · rintro ⟨m, hm, hw⟩
      by_cases hmn : m = n
      · subst hmn
        rw [Function.update_self] at hw
        cases hw
      · rw [Function.update_of_ne hmn] at hw
        refine ⟨⟨m, hm, hw⟩, fun heq => hmn ?_⟩
        exact Int.ofNat_inj.mp (hm.symm.trans heq)

/-- One more call, whatever it is. -/
theorem step (h : Holds reps t) (op : Op α) :
    Holds (held reps (op, (op.call t).1)) (op.call t).2 := by
  cases op with
  | add v =>
    obtain ⟨rep, t', hcall, -, hholds⟩ := h.add v
    rw [hcall]
    exact hholds
  | get rep =>
    by_cases hmem : rep ∈ reps.map Prod.fst
    · obtain ⟨⟨rep, v⟩, hpair, rfl⟩ := List.mem_map.mp hmem
      rw [h.get_held hpair]
      exact h
    · obtain ⟨e, hcall⟩ := h.get_other hmem
      rw [hcall]
      exact h
  | remove rep =>
    by_cases hmem : rep ∈ reps.map Prod.fst
    · obtain ⟨⟨rep, v⟩, hpair, rfl⟩ := List.mem_map.mp hmem
      obtain ⟨t', hcall, hholds⟩ := h.remove_held hpair
      rw [hcall]
      exact hholds
    · obtain ⟨e, hcall⟩ := h.remove_other hmem
      rw [hcall]
      exact h

theorem run (h : Holds reps t) (ops : List (Op α)) :
    Holds ((RepTable.run ops t).1.foldl held reps) (RepTable.run ops t).2 := by
  induction ops generalizing reps t with
  | nil => exact h
  | cons op ops ih => exact ih (h.step op)

/-- The chain of vacancies passes through the vacant slots, once through each. -/
theorem vacancies (h : Holds reps t) : ∃ rs, Chained t.link t.firstVacant rs ∧ rs.Nodup ∧
    ∀ n, n ∈ rs ↔ ∃ next, t.list[n]? = some (.vacant next) := by
  obtain ⟨rs, hrs⟩ := h.wf
  refine ⟨rs, hrs.chain, hrs.nodup, fun n => ?_⟩
  constructor
  · intro hn
    obtain ⟨next, hnext⟩ := hrs.chain.vacant hn
    exact ⟨next, list_of_link hnext⟩
  · rintro ⟨next, hnext⟩
    exact hrs.all n next (link_of_list hnext)

end Holds

/-- After any calls on a new table: the vacancies are chained, each slot of them once; the
reps handed out are distinct, and `Get` returns what each was added for; `Get` and `Remove`
of anything else throw, and leave the table as it is. -/
theorem run_represents (ops : List (Op α)) :
    let log := (run ops new).1
    let t := (run ops new).2
    (∃ rs, Chained t.link t.firstVacant rs ∧ rs.Nodup ∧
      ∀ n, n ∈ rs ↔ ∃ next, t.list[n]? = some (.vacant next)) ∧
    ((handedOut log).map Prod.fst).Nodup ∧
    (∀ rep v, (rep, v) ∈ handedOut log → (Op.get rep).call t = (.ok (.value v), t)) ∧
    ∀ rep, rep ∉ (handedOut log).map Prod.fst →
      (∃ e, (Op.get rep).call t = (.error e, t)) ∧
      ∃ e, (Op.remove rep).call t = (.error e, t) := by
  intro log t
  have h : Holds (handedOut log) t := Holds.new.run ops
  refine ⟨h.vacancies, h.nodup, fun rep v hmem => h.get_held hmem, fun rep hmem => ?_⟩
  exact ⟨h.get_other hmem, h.remove_other hmem⟩

end WitBindgen.CSharp.RepTable
