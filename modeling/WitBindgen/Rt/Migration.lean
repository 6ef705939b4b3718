import WitBindgen.Rt.Subtask

/-!
# Registration over whole runs

What the registration invariant says of every run: the pointer to the completion
status is in one map at most, in none once the operation is over, the operation is
started and cancelled at most once and never after its last code, and the driver
never panics. Tasks of the first version of the C ABI cannot be cloned. An
operation that waits in one of them cannot leave it from another task, so these
results are about runs that stay in such a task.
-/

namespace WitBindgen

namespace Rt

namespace World

variable {S : WaitableOp} {w : World S}

/-- The runs in which tasks of the first version are not left. -/
def confinedSystem (C : S.Contract) : System (World S) Event Panic where
  init := (system C).init
  allowed w e := allowed C w e ∧ w.Confined e
  exec := exec

theorem Inv.initial (C : S.Contract) (h : (system C).init w) : w.Inv := by
  obtain ⟨op, s, hself, hn, hcalls, hdropped⟩ := h
  have hstate : w.self.state = .start s := by rw [hself]; rfl
  have htask : w.self.task = none := by rw [hself]; rfl
  have hcode : w.self.completionStatus.code = none := by rw [hself]; rfl
  exact .fresh s hstate ⟨hn, htask, hcode, hcalls⟩ hdropped

theorem Inv.of_reachable (C : S.Contract) (h : (confinedSystem C).Reachable w) : w.Inv :=
  System.Reachable.invariant (S := confinedSystem C) (fun _ hw => Inv.initial C hw)
    (fun _ _ _ hinv hok hexec => (exec_spec C hinv hok.1 hok.2).of_ok hexec) h

/-! ## Histories -/

theorem OpenCalls.counts {calls : List OpCall} (h : OpenCalls calls) :
    calls.count .start = 1 ∧ calls.count .cancel = 0 ∧ ∀ c, .update c true ∉ calls := by
  obtain ⟨codes, rfl⟩ := h
  have hstart : OpCall.start ∉ codes.map (OpCall.update · false) := by simp
  have hcancel : OpCall.cancel ∉ codes.map (OpCall.update · false) := by simp
  refine ⟨?_, ?_, fun c => by simp⟩
  · rw [List.count_cons_self, List.count_eq_zero_of_not_mem hstart]
  · rw [List.count_cons_of_ne (by decide), List.count_eq_zero_of_not_mem hcancel]

/-- A history in which a completing code is the last entry. -/
structure Orderly (calls : List OpCall) : Prop where
  start_once : calls.count .start ≤ 1
  cancel_once : calls.count .cancel ≤ 1
  last : ∀ before c after, calls = before ++ OpCall.update c true :: after → after = []

theorem OpenCalls.orderly {calls : List OpCall} (h : OpenCalls calls) : Orderly calls := by
  obtain ⟨hstart, hcancel, hupdate⟩ := h.counts
  refine ⟨by omega, by omega, fun before c after heq => absurd ?_ (hupdate c)⟩
  rw [heq]
  exact List.mem_append_right _ (List.mem_cons_self ..)

theorem ClosedCalls.orderly {calls : List OpCall} (h : ClosedCalls calls) : Orderly calls := by
  rcases h with rfl | ⟨opened, asked, code, hopen, hasked, rfl⟩
  · exact ⟨Nat.zero_le _, Nat.zero_le _, fun before c after heq => absurd heq (by simp)⟩
  · obtain ⟨hstart, hcancel, hupdate⟩ := hopen.counts
    have hnone : ∀ c, OpCall.update c true ∉ opened ++ asked := by
      intro c hc
      rcases List.mem_append.mp hc with hc | hc
      · exact hupdate c hc
      · rcases hasked with rfl | rfl <;> simp at hc
    refine ⟨?_, ?_, fun before c after heq => ?_⟩
    · rcases hasked with rfl | rfl <;> simp [hstart]
    · rcases hasked with rfl | rfl <;> simp [hcancel]
    · by_contra hne
      obtain ⟨after', x, rfl⟩ := List.eq_nil_or_concat after |>.resolve_left hne
      have hinit : opened ++ asked = before ++ OpCall.update c true :: after' := by
        rw [List.concat_eq_append, ← List.cons_append, ← List.append_assoc] at heq
        exact (List.append_inj' heq rfl).1
      exact hnone c (hinit ▸ List.mem_append_right _ (List.mem_cons_self ..))

/-! ## Safety -/

/-- What holds of an operation at every moment of its life. -/
structure RegistrationSafe (C : S.Contract) (w : World S) : Prop where
  one_task : ∀ t h t' h', w.tasks.waitables t h = some w.addr →
    w.tasks.waitables t' h' = some w.addr → t = t' ∧ h = h'
  none_when_over : w.self.isDone = true ∨ w.dropped = true →
    ∀ t h, w.tasks.waitables t h ≠ some w.addr
  history : Orderly w.calls
  no_panic : ∀ e, allowed C w e → w.Confined e → ∀ text, w.exec e ≠ .error (.own text)

theorem Inv.safe {C : S.Contract} (hinv : w.Inv) : w.RegistrationSafe C where
  one_task t h t' h' hp hp' := by
    cases hinv with
    | fresh s _ hf => exact absurd hp (hf.nowhere t h)
    | settled hover => exact absurd hp (hover.nowhere t h)
    | inFlight ip h₀ hflight =>
      rcases hflight.place with ⟨t₀, hwait, -⟩ | ⟨hn, -⟩
      · obtain ⟨rfl, rfl⟩ := hwait.1.unique hp
        obtain ⟨rfl, rfl⟩ := hwait.1.unique hp'
        exact ⟨rfl, rfl⟩
      · exact absurd hp (hn t h)
  none_when_over hover := by
    cases hinv with
    | fresh s _ hf => exact hf.nowhere
    | settled hover => exact hover.nowhere
    | inFlight ip h₀ hflight _ hdropped =>
      rcases hover with hdone | hdrop
      · rw [WaitableOperation.isDone, hflight.state] at hdone
        cases hdone
      · rw [hdropped] at hdrop
        cases hdrop
  history := by
    cases hinv with
    | fresh s _ hf => rw [hf.calls]; exact (ClosedCalls.orderly (Or.inl rfl))
    | settled _ hcalls => exact hcalls.orderly
    | inFlight ip h₀ _ hcalls => exact hcalls.orderly
  no_panic e hok hconf text herr := by
    obtain ⟨_, h⟩ := (exec_spec C hinv hok hconf).of_error herr
    cases h

theorem registration_safe (C : S.Contract) (w : World S) (hw : (confinedSystem C).Reachable w) :
    w.RegistrationSafe C := (Inv.of_reachable C hw).safe

/-! ## Two tasks -/

/-- Polled first in one and then in another task of the first version, a call that
has started is registered in both. -/
theorem registered_in_both_tasks : ∃ w, (system wordImport.contract).Reachable w ∧
    w.tasks.waitables 1 1 = some w.addr ∧ w.tasks.waitables 2 1 = some w.addr := by
  have hfirst : allowed wordImport.contract freshCall (.poll 0 ⟨1, 1⟩ 0x11) :=
    ⟨rfl, rfl, Nat.le_refl _, freshCall_startsFresh _⟩
  have hstarted : (system wordImport.contract).Reachable startedCall :=
    (System.Reachable.init _ freshCall_init).step _ _ (.poll 0 ⟨1, 1⟩ 0x11) hfirst rfl
  have hsecond : allowed wordImport.contract startedCall (.poll 0 ⟨1, 2⟩ 0) :=
    ⟨rfl, rfl, Nat.le_refl _, fun _ hs => by cases hs⟩
  exact ⟨_, hstarted.step _ _ (.poll 0 ⟨1, 2⟩ 0) hsecond rfl, rfl, rfl⟩

/-- In tasks that can be cloned the second poll leaves the first task. -/
theorem registration_safe_migrated : ∃ w : World wordImport.ops,
    w.tasks.waitables 2 1 = some w.addr ∧ w.RegistrationSafe wordImport.contract := by
  have hfirst : allowed wordImport.contract freshCall (.poll 0 ⟨2, 1⟩ 0x11) ∧
      freshCall.Confined (.poll 0 ⟨2, 1⟩ 0x11) :=
    ⟨⟨rfl, rfl, by decide, freshCall_startsFresh _⟩, fun h => absurd rfl h, fun _ _ _ h => by cases h⟩
  have hstarted : (confinedSystem wordImport.contract).Reachable
      (startedCall.setTask (some ⟨1, some 1⟩)) :=
    System.Reachable.step _ _ (.poll 0 ⟨2, 1⟩ 0x11) (System.Reachable.init _ freshCall_init) hfirst
      rfl
  have hsecond : allowed wordImport.contract (startedCall.setTask (some ⟨1, some 1⟩))
        (.poll 0 ⟨2, 2⟩ 0) ∧
      (startedCall.setTask (some ⟨1, some 1⟩)).Confined (.poll 0 ⟨2, 2⟩ 0) :=
    ⟨⟨rfl, rfl, by decide, fun _ hs => by cases hs⟩, fun _ => Nat.le_refl _, fun h => by cases h⟩
  exact ⟨_, rfl, registration_safe _ _ 
    (hstarted.step _ _ (.poll 0 ⟨2, 2⟩ 0) hsecond rfl)⟩

end World

end Rt

end WitBindgen
