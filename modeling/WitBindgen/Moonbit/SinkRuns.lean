import WitBindgen.Moonbit.Sink
import WitBindgen.Moonbit.StreamServed
import Mathlib.Data.List.Basic
import Mathlib.Data.List.Nodup

/-!
# Who owns what is written to a sink

The first values of a view are those that the writes of the call took: the pipe accepted
them, or gave them to the cleanup callback when the reader was dropped. Where the sink
is closed the call cleans up the others. The invariant carries this from write to write:
between two writes of a `write_all` exactly the values in front of its offset were taken.
-/

namespace WitBindgen

namespace Moonbit

namespace Sink

open StreamPipe (Event WriteId Waits)

variable {α : Type} {pipe pipe' : Pipe α} {call call' : Call α}

/-- The values in a log that are of one write. -/
def entries (log : List (WriteId × List α)) (w : WriteId) : List α :=
  log.flatMap fun p => if p.1 = w then p.2 else []

/-- What the pipe accepted of a write or gave to the cleanup callback when it was dropped. -/
def takenOf (pipe : Pipe α) (w : WriteId) : List α := entries pipe.accepted w ++ entries pipe.reclaimed w

def Call.taken (call : Call α) (pipe : Pipe α) : List α := call.writes.flatMap (takenOf pipe)

/-- What became of the view of a call that ended. -/
structure Owned (pipe : Pipe α) (call : Call α) (e : Ended) : Prop where
  /-- Each value was taken once or cleaned up once. -/
  all : call.all = true → e.hasCleanup = true → call.taken pipe ++ call.cleaned = call.data
  whole : e.outcome = .wroteAll true → call.taken pipe = call.data ∧ call.cleaned = []
  /-- `write` returns how many values were, and zero only if there were none or the sink is closed. -/
  written : ∀ n, e.outcome = .written n → call.taken pipe ++ call.cleaned = call.data.take n ∧
    n ≤ call.data.length ∧ (n = 0 → call.data = [] ∨ e.isOpen = false)
  /-- The values of a `write` that raised are left to its caller. -/
  raised : call.all = false → e.outcome = .raised → call.taken pipe = [] ∧ call.cleaned = []

/-! ## What was taken -/

theorem entries_absent {log : List (WriteId × List α)} {w : WriteId} (h : w ∉ log.map Prod.fst) :
    entries log w = [] := by
  refine List.flatMap_eq_nil_iff.mpr fun p hp => if_neg ?_
  rintro rfl
  exact h (List.mem_map.mpr ⟨p, hp, rfl⟩)

theorem entries_of_mem {log : List (WriteId × List α)} (hkeys : (log.map Prod.fst).Nodup)
    {p : WriteId × List α} (hp : p ∈ log) : entries log p.1 = p.2 := by
  induction log with
  | nil => exact nomatch hp
  | cons q log ih =>
    rw [List.map_cons, List.nodup_cons] at hkeys
    have hcons : entries (q :: log) p.1 = (if q.1 = p.1 then q.2 else []) ++ entries log p.1 := rfl
    rw [hcons]
    rcases List.mem_cons.mp hp with rfl | hp
    · rw [if_pos rfl, entries_absent hkeys.1, List.append_nil]
    · have hne : q.1 ≠ p.1 := fun heq => hkeys.1 (heq ▸ List.mem_map.mpr ⟨p, hp, rfl⟩)
      rw [if_neg hne, List.nil_append, ih hkeys.2 hp]

theorem takenOf_eq (h : pipe.Inv) (w : WriteId) : takenOf pipe w = (pipe.data w).take (pipe.took w) := by
  have hkept : takenOf pipe w = entries pipe.kept w := by
    rw [takenOf, StreamPipe.State.kept, entries, entries, entries, List.flatMap_append]
  rw [hkept]
  by_cases hw : w ∈ pipe.kept.map Prod.fst
  · obtain ⟨p, hp, rfl⟩ := List.mem_map.mp hw
    obtain ⟨-, hprefix, htook⟩ := h.writes.kept.2 p hp
    rw [entries_of_mem h.writes.kept.1 hp, htook]
    exact List.prefix_iff_eq_take.mp hprefix
  · rw [entries_absent hw, h.writes.rest w hw, List.take_zero]

theorem took_le (h : pipe.Inv) (w : WriteId) : pipe.took w ≤ (pipe.data w).length := by
  by_cases hw : w ∈ pipe.kept.map Prod.fst
  · obtain ⟨p, hp, rfl⟩ := List.mem_map.mp hw
    obtain ⟨-, hprefix, htook⟩ := h.writes.kept.2 p hp
    rw [htook]
    exact hprefix.length_le
  · rw [h.writes.rest w hw]
    exact Nat.zero_le _

/-- The pipe gets on: what was answered stays. -/
structure Grows (pipe pipe' : Pipe α) : Prop where
  old : pipe.Inv
  new : pipe'.Inv
  results : pipe.results ⊆ pipe'.results
  writes : pipe.writes ≤ pipe'.writes
  data : ∀ w < pipe.writes, pipe'.data w = pipe.data w

theorem Grows.mem (h : Grows pipe pipe') {w : WriteId} (hw : w ∈ pipe.results.map Prod.fst) :
    w ∈ pipe'.results.map Prod.fst := List.map_subset _ h.results hw

/-- Nothing more is taken of a write that returned. -/
theorem Grows.takenOf (h : Grows pipe pipe') {w : WriteId} (hw : w ∈ pipe.results.map Prod.fst) :
    takenOf pipe' w = takenOf pipe w := by
  obtain ⟨p, hp, rfl⟩ := List.mem_map.mp hw
  obtain ⟨hlt, htook⟩ := h.old.writes.results.2 p hp
  have htook' := (h.new.writes.results.2 p (h.results hp)).2
  rw [takenOf_eq h.old, takenOf_eq h.new, h.data p.1 hlt, ← htook, ← htook']

theorem Grows.flatMap (h : Grows pipe pipe') {ws : List WriteId}
    (hws : ∀ w ∈ ws, w ∈ pipe.results.map Prod.fst) :
    ws.flatMap (Sink.takenOf pipe') = ws.flatMap (Sink.takenOf pipe) :=
  List.flatMap_congr fun w hw => h.takenOf (hws w hw)

/-! ## Calls -/

/-- A call of which all writes returned. -/
structure Finished (pipe : Pipe α) (call : Call α) (e : Ended) : Prop where
  returned : ∀ w ∈ call.writes, w ∈ pipe.results.map Prod.fst
  owned : Owned pipe call e
  first : call.taken pipe ++ call.cleaned <+: call.data
  size : call.writes.length ≤ call.data.length

/-- A call before its next write. -/
structure Loops (pipe : Pipe α) (call : Call α) (ws : List WriteId) : Prop where
  ended : call.ended = none
  returned : ∀ w ∈ ws, w ∈ pipe.results.map Prod.fst
  taken : ws.flatMap (takenOf pipe) = call.data.take call.offset
  offset : call.offset ≤ call.data.length
  cleaned : call.cleaned = []
  size : ws.length ≤ call.offset
  once : call.all = false → call.offset = 0

/-- A call during its write `w`. -/
structure Writing (pipe : Pipe α) (call : Call α) (ws : List WriteId) (w : WriteId) : Prop where
  loops : Loops pipe call ws
  more : call.offset < call.data.length
  last : call.writes = ws ++ [w]
  window : pipe.data w = call.window

theorem Owned.grow {e : Ended} (h : Owned pipe call e) (htaken : call.taken pipe' = call.taken pipe) :
    Owned pipe' call e := by
  refine ⟨?_, ?_, ?_, ?_⟩
  · rw [htaken]
    exact h.all
  · rw [htaken]
    exact h.whole
  · rw [htaken]
    exact h.written
  · rw [htaken]
    exact h.raised

theorem Finished.grow {e : Ended} (h : Finished pipe call e) (hg : Grows pipe pipe') : Finished pipe' call e := by
  have htaken : call.taken pipe' = call.taken pipe := hg.flatMap h.returned
  exact ⟨fun w hw => hg.mem (h.returned w hw), h.owned.grow htaken, htaken ▸ h.first, h.size⟩

theorem Loops.grow {ws : List WriteId} (h : Loops pipe call ws) (hg : Grows pipe pipe') : Loops pipe' call ws :=
  ⟨h.ended, fun w hw => hg.mem (h.returned w hw), (hg.flatMap h.returned).trans h.taken, h.offset, h.cleaned,
    h.size, h.once⟩

theorem window_length (call : Call α) :
    call.window.length = min writeWindowSize (call.data.length - call.offset) := by
  rw [Call.window, List.length_take, List.length_drop]

/-- The first values of a window are the next ones of the view. -/
theorem take_window (call : Call α) {n : Nat} (hn : n ≤ call.window.length) :
    call.data.take call.offset ++ call.window.take n = call.data.take (call.offset + n) := by
  rw [window_length] at hn
  rw [Call.window, List.take_take, Nat.min_eq_left (by omega), List.take_add]

theorem take_whole_window (call : Call α) : call.data.take call.offset ++ call.window =
    call.data.take (call.offset + call.window.length) := by
  rw [← take_window call (Nat.le_refl _), List.take_length]

theorem Loops.take (h : pipe.Inv) {ws : List WriteId} {w : WriteId} (hw : Writing pipe call ws w) :
    call.taken pipe = call.data.take (call.offset + pipe.took w) := by
  have hle := took_le h w
  rw [hw.window] at hle
  rw [Call.taken, hw.last, List.flatMap_append, hw.loops.taken, List.flatMap_singleton, takenOf_eq h, hw.window,
    take_window call hle]

theorem isOpen_false_iff : isOpen pipe = false ↔ pipe.Closed := by
  rw [isOpen, StreamPipe.State.Closed]
  cases pipe.writerClosed <;> cases pipe.readerDropped <;> simp

/-- A write returned zero: the sink is closed. -/
theorem closed_of_zero (h : pipe.Inv) (hserved : pipe.Served) {w : WriteId} (hdata : pipe.data w ≠ [])
    (hw : (w, some 0) ∈ pipe.results) : isOpen pipe = false := by
  obtain ⟨hlt, htook⟩ := h.writes.results.2 _ hw
  have hcoro : (pipe.writer w).coro = none := by
    cases hc : (pipe.writer w).coro with
    | none => rfl
    | some c => exact absurd (List.mem_map_of_mem hw) (h.writes.waits c w (h.writes.live w c hc).1).2.1
  rcases hserved.settled w hlt hcoro with hnil | hpos | hclosed | hraised
  · exact absurd hnil hdata
  · have hzero : 0 = pipe.took w := htook
    exact absurd hpos (by omega)
  · exact isOpen_false_iff.mpr hclosed
  · have hsame := List.inj_on_of_nodup_map h.writes.results.1 hw hraised rfl
    exact nomatch (Prod.mk.inj hsame).2

/-! ## The write callback answers -/

/-- The call ended, or goes on behind the values that were taken. -/
def Continues (pipe : Pipe α) (call : Call α) : Prop :=
  (∃ e, call.ended = some e ∧ Finished pipe call e) ∨ Loops pipe call call.writes

section
variable {ws : List WriteId} {w : WriteId}

theorem Writing.returned (h : Writing pipe call ws w) (hw : w ∈ pipe.results.map Prod.fst) :
    ∀ u ∈ call.writes, u ∈ pipe.results.map Prod.fst := by
  intro u hu
  rw [h.last] at hu
  rcases List.mem_append.mp hu with hu | hu
  · exact h.loops.returned u hu
  · rwa [List.mem_singleton.mp hu]

theorem Writing.size (h : Writing pipe call ws w) : call.writes.length ≤ call.offset + 1 := by
  rw [h.last, List.length_append]
  exact Nat.add_le_add_right h.loops.size 1

/-- The write callback raised: nothing was taken. -/
theorem Writing.raise (h : Writing pipe call ws w) (hinv : pipe.Inv) (hw : (w, none) ∈ pipe.results) :
    ∃ call', call.answered pipe none = .ok call' ∧ call'.writes = call.writes ∧ Continues pipe call' := by
  have htook : pipe.took w = 0 := ((hinv.writes.results.2 _ hw).2).symm
  have htaken : call.taken pipe = call.data.take call.offset := by
    rw [Loops.take hinv h, htook, Nat.add_zero]
  have hcleaned := h.loops.cleaned
  have hsize : call.writes.length ≤ call.data.length := by
    have hle := h.size
    have hlt := h.more
    omega
  have hret := h.returned (List.mem_map_of_mem hw)
  cases hall : call.all with
  | false =>
    refine ⟨call.finish pipe .raised, by rw [Call.answered, hall]; rfl, rfl, Or.inl ⟨_, rfl, ?_⟩⟩
    have hnone : call.taken pipe = [] := by rw [htaken, h.loops.once hall, List.take_zero]
    refine ⟨hret, ⟨fun ha => ?_, by simp, by simp, fun _ _ => ⟨hnone, hcleaned⟩⟩, ?_, hsize⟩
    · exact absurd (hall.symm.trans ha) (by simp)
    · show call.taken pipe ++ call.cleaned <+: call.data
      rw [hnone, hcleaned]
      exact List.nil_prefix
  | true =>
    refine ⟨(call.cleanupUnaccepted pipe call.data call.offset).finish pipe .raised,
      by rw [Call.answered, hall]; rfl, ?_, Or.inl ⟨_, rfl, ?_⟩⟩
    · rw [cleanupUnaccepted_eq]
      rfl
    · rw [cleanupUnaccepted_eq, hcleaned, List.nil_append]
      refine ⟨hret, ⟨fun _ hcleanup => ?_, by simp, by simp, fun ha => ?_⟩, ?_, hsize⟩
      · have hcleanup' : pipe.cleanup = true := hcleanup
        show call.taken pipe ++ (if pipe.cleanup then call.data.drop call.offset else []) = call.data
        rw [if_pos hcleanup', htaken, List.take_append_drop]
      · exact absurd (hall.symm.trans ha) (by simp)
      · show call.taken pipe ++ (if pipe.cleanup then call.data.drop call.offset else []) <+: call.data
        rw [htaken]
        split
        · refine ⟨[], ?_⟩
          rw [List.append_nil, List.take_append_drop]
        · rw [List.append_nil]
          exact List.take_prefix ..

/-- What `Sink::write` made of the window. -/
theorem Writing.consume (h : Writing pipe call ws w) (hinv : pipe.Inv) {n : Nat} (hw : (w, some n) ∈ pipe.results) :
    ∃ m cleaned, call.consumed pipe call.window n = .ok (m, { call with cleaned := cleaned }) ∧
      call.taken pipe ++ cleaned = call.data.take (call.offset + m) ∧ call.offset + m ≤ call.data.length ∧
      (m = n ∧ cleaned = [] ∧ (isOpen pipe = true ∨ n = call.window.length ∨ pipe.cleanup = false) ∨
        m = call.window.length ∧ isOpen pipe = false ∧ pipe.cleanup = true) := by
  have htook : pipe.took w = n := ((hinv.writes.results.2 _ hw).2).symm
  have htaken : call.taken pipe = call.data.take (call.offset + n) := by rw [Loops.take hinv h, htook]
  have hle : n ≤ call.window.length := by
    rw [← h.window, ← htook]
    exact took_le hinv w
  have hwindow := window_length call
  have hmore := h.more
  cases hcons : call.consumed pipe call.window n with
  | error e =>
    rw [Call.consumed, if_neg (Nat.not_lt.mpr hle)] at hcons
    split at hcons <;> cases hcons
  | ok x =>
    obtain ⟨m, call'⟩ := x
    obtain ⟨-, ⟨rfl, rfl, hwhy⟩ | ⟨rfl, hclosed, hcleanup, rfl⟩⟩ := consumed_inv hcons
    · refine ⟨m, [], ?_, ?_, by omega, Or.inl ⟨rfl, rfl, hwhy⟩⟩
      · rw [← h.loops.cleaned]
      · rw [List.append_nil, htaken]
    · refine ⟨_, _, rfl, ?_, by omega, Or.inr ⟨rfl, hclosed, hcleanup⟩⟩
      rw [h.loops.cleaned, List.nil_append, htaken, ← take_window call hle, List.append_assoc,
        List.take_append_drop, take_whole_window]

theorem Call.window_ne_nil (h : call.offset < call.data.length) : call.window ≠ [] := by
  refine List.ne_nil_of_length_pos ?_
  rw [window_length, writeWindowSize]
  omega

/-- `Sink::write` returned to the loop of `write_all`. -/
theorem Writing.advance (h : Writing pipe call ws w) (hinv : pipe.Inv) (hserved : pipe.Served) {n m : Nat}
    {cleaned : List α} (hw : (w, some n) ∈ pipe.results) (hall : call.all = true)
    (htaken : call.taken pipe ++ cleaned = call.data.take (call.offset + m))
    (hm : call.offset + m ≤ call.data.length)
    (hwhy : m = n ∧ cleaned = [] ∧ (isOpen pipe = true ∨ n = call.window.length ∨ pipe.cleanup = false) ∨
      m = call.window.length ∧ isOpen pipe = false ∧ pipe.cleanup = true) :
    ∃ call', ({ call with cleaned := cleaned } : Call α).advance pipe m = .ok call' ∧
      call'.writes = call.writes ∧ Continues pipe call' := by
  have hret := h.returned (List.mem_map_of_mem hw)
  have hsize := h.size
  have hmore := h.more
  cases hadv : ({ call with cleaned := cleaned } : Call α).advance pipe m with
  | error e =>
    -- the guard: the sink is open and nothing was taken
    exfalso
    rw [Call.advance] at hadv
    dsimp only at hadv
    split at hadv
    · cases hadv
    · rename_i hopen
      rw [Bool.not_eq_true', Bool.not_eq_false] at hopen
      split at hadv
      · rename_i hzero
        rcases hwhy with ⟨rfl, -, -⟩ | ⟨-, hclosed, -⟩
        · have hclosed := closed_of_zero hinv hserved (h.window ▸ Call.window_ne_nil hmore) (hzero ▸ hw)
          exact absurd (hopen.symm.trans hclosed) (by simp)
        · exact absurd (hopen.symm.trans hclosed) (by simp)
      · cases hadv
  | ok call' =>
    rcases advance_inv hadv with ⟨hclosed, rfl⟩ | ⟨hopen, hpos, rfl⟩
    · refine ⟨_, rfl, rfl, Or.inl ⟨_, rfl, hret, ⟨fun _ hcleanup => ?_, by simp, by simp, fun ha => ?_⟩, ?_, ?_⟩⟩
      · have hcleanup' : pipe.cleanup = true := hcleanup
        show call.taken pipe ++ (cleaned ++ (if pipe.cleanup then call.data.drop (call.offset + m) else [])) =
          call.data
        rw [if_pos hcleanup', ← List.append_assoc, htaken, List.take_append_drop]
      · exact absurd (hall.symm.trans ha) (by simp)
      · show call.taken pipe ++ (cleaned ++ (if pipe.cleanup then call.data.drop (call.offset + m) else [])) <+:
          call.data
        rw [← List.append_assoc, htaken]
        split
        · refine ⟨[], ?_⟩
          rw [List.append_nil, List.take_append_drop]
        · rw [List.append_nil]
          exact List.take_prefix ..
      · show call.writes.length ≤ call.data.length
        omega
    · rcases hwhy with ⟨rfl, rfl, -⟩ | ⟨-, hclosed, -⟩
      · refine ⟨_, rfl, rfl, Or.inr ⟨h.loops.ended, hret, ?_, hm, rfl, ?_, fun ha => ?_⟩⟩
        · rw [← htaken, List.append_nil]
          rfl
        · show call.writes.length ≤ call.offset + m
          omega
        · exact absurd (hall.symm.trans ha) (by simp)
      · exact absurd (hopen.symm.trans hclosed) (by simp)

theorem Writing.answer (h : Writing pipe call ws w) (hinv : pipe.Inv) (hserved : pipe.Served) {r : Option Nat}
    (hw : (w, r) ∈ pipe.results) :
    ∃ call', call.answered pipe r = .ok call' ∧ call'.writes = call.writes ∧ Continues pipe call' := by
  cases r with
  | none => exact h.raise hinv hw
  | some n =>
    obtain ⟨m, cleaned, hcons, htaken, hm, hwhy⟩ := h.consume hinv hw
    have hanswered : call.answered pipe (some n) = if call.all then
        ({ call with cleaned := cleaned } : Call α).advance pipe m
        else .ok (({ call with cleaned := cleaned } : Call α).finish pipe (.written m)) := by
      rw [Call.answered, hcons]
      rfl
    rw [hanswered]
    by_cases hall : call.all = true
    · rw [if_pos hall]
      exact h.advance hinv hserved hw hall htaken hm hwhy
    · rw [if_neg hall]
      have hoffset := h.loops.once (Bool.not_eq_true _ ▸ hall)
      rw [hoffset, Nat.zero_add] at htaken hm
      have hsize := h.size
      have hmore := h.more
      refine ⟨_, rfl, rfl, Or.inl ⟨_, rfl, h.returned (List.mem_map_of_mem hw),
        ⟨fun ha => absurd ha hall, by simp, ?_, fun _ => (by simp)⟩, ?_, ?_⟩⟩
      · rintro k hk
        cases hk
        refine ⟨htaken, hm, fun hzero => Or.inr ?_⟩
        rcases hwhy with ⟨rfl, -, -⟩ | ⟨-, hclosed, -⟩
        · exact closed_of_zero hinv hserved (h.window ▸ Call.window_ne_nil hmore) (hzero ▸ hw)
        · exact hclosed
      · show call.taken pipe ++ cleaned <+: call.data
        rw [htaken]
        exact List.take_prefix ..
      · show call.writes.length ≤ call.data.length
        omega

end

/-- The view is used up. -/
theorem Loops.finish {call : Call α} (h : Loops pipe call call.writes) (hdone : call.data.length ≤ call.offset) :
    Finished pipe (call.finish pipe (if call.all then .wroteAll true else .written 0))
      ⟨if call.all then .wroteAll true else .written 0, isOpen pipe, pipe.cleanup⟩ := by
  have htaken : call.taken pipe = call.data := h.taken.trans (List.take_of_length_le hdone)
  have hwhole : call.taken pipe ++ call.cleaned = call.data := by rw [htaken, h.cleaned, List.append_nil]
  refine ⟨h.returned, ⟨fun _ _ => hwhole, fun _ => ⟨htaken, h.cleaned⟩, fun n hn => ?_, fun _ hr => ?_⟩, ?_,
    Nat.le_trans h.size h.offset⟩
  · by_cases hall : call.all = true
    · rw [if_pos hall] at hn
      exact nomatch hn
    · rw [if_neg hall] at hn
      cases hn
      have hnil : call.data = [] := by
        rw [h.once (Bool.not_eq_true _ ▸ hall)] at hdone
        exact List.eq_nil_of_length_eq_zero (Nat.le_zero.mp hdone)
      refine ⟨?_, Nat.zero_le _, fun _ => Or.inl hnil⟩
      show call.taken pipe ++ call.cleaned = call.data.take 0
      rw [hwhole, hnil]
      rfl
  · by_cases hall : call.all = true
    · rw [if_pos hall] at hr
      exact nomatch hr
    · rw [if_neg hall] at hr
      exact nomatch hr
  · show call.taken pipe ++ call.cleaned <+: call.data
    exact ⟨[], by rw [List.append_nil, hwhole]⟩

/-! ## The invariant -/

namespace State

variable {s s' : State α} {c : CoroId} {k : CallId}

/-- A call has ended, or waits for its last write. -/
inductive CallInv (s : State α) (k : CallId) : Prop where
  | ended {e : Ended} (hended : (s.calls k).ended = some e) (h : Finished s.pipe (s.calls k) e)
  | writing {ws : List WriteId} {w : WriteId} (h : Writing s.pipe (s.calls k) ws w)
      (howner : s.owner w = some k) (hlt : w < s.pipe.writes) (hwaits : w ∉ s.pipe.results.map Prod.fst)

def Owners (s : State α) : Prop :=
  ∀ w k, s.owner w = some k → k < s.count ∧ w ∈ (s.calls k).writes ∧ w < s.pipe.writes

structure Inv (s : State α) : Prop where
  pipe : s.pipe.Inv
  served : s.pipe.Served
  calls : ∀ k < s.count, s.CallInv k
  owners : s.Owners

/-- A call while its coroutine runs. -/
structure Running (s : State α) (c : CoroId) (k : CallId) : Prop where
  pipe : s.pipe.Inv
  served : s.pipe.Served
  curr : s.pipe.sched.currCoro = some c
  ready : (s.pipe.sched.coros c).interrupted = false → (s.pipe.sched.coros c).ready = false
  here : k < s.count
  mine : Continues s.pipe (s.calls k)
  others : ∀ j < s.count, j ≠ k → s.CallInv j
  owners : s.Owners

theorem CallInv.grow (h : s.CallInv k) (hg : Grows s.pipe s'.pipe) (hcall : s'.calls k = s.calls k)
    (howner : ∀ w, s.owner w = some k → s'.owner w = some k)
    (hwaits : ∀ w < s.pipe.writes, s.owner w = some k → w ∉ s.pipe.results.map Prod.fst →
      w ∉ s'.pipe.results.map Prod.fst) : s'.CallInv k := by
  cases h with
  | ended hended hf => exact .ended (hcall ▸ hended) (hcall ▸ hf.grow hg)
  | @writing ws w hw hown hlt hwait =>
    have hwindow := (hg.data w hlt).trans hw.window
    refine @CallInv.writing _ s' k ws w ?_ (howner w hown) (Nat.lt_of_lt_of_le hlt hg.writes) (hwaits w hlt hown hwait)
    rw [hcall]
    exact ⟨hw.loops.grow hg, hw.more, hw.last, hwindow⟩

theorem Owners.setCall (h : s.Owners) {call : Call α} (hwrites : call.writes = (s.calls k).writes) :
    (s.setCall k call).Owners := by
  intro w j hj
  obtain ⟨hlt, hmem, hw⟩ := h w j hj
  refine ⟨hlt, ?_, hw⟩
  by_cases heq : j = k
  · subst heq
    show w ∈ (Function.update s.calls j call j).writes
    rw [Function.update_self, hwrites]
    exact hmem
  · show w ∈ (Function.update s.calls k call j).writes
    rw [Function.update_of_ne heq]
    exact hmem

theorem CallInv.setCall (h : s.CallInv k) (hpipe : s.pipe.Inv) {j : CallId} (hne : k ≠ j) (call : Call α) :
    (s.setCall j call).CallInv k :=
  h.grow ⟨hpipe, hpipe, List.Subset.refl _, Nat.le_refl _, fun _ _ => rfl⟩ (Function.update_of_ne hne _ _)
    (fun _ hw => hw) fun _ _ _ hw => hw

/-- The call ends without another write. -/
theorem Running.leave (h : s.Running c k) {call : Call α} {e : Ended} (hwrites : call.writes = (s.calls k).writes)
    (hended : call.ended = some e) (hf : Finished s.pipe call e) : (s.setCall k call).Inv := by
  have hcall : (s.setCall k call).calls k = call := Function.update_self ..
  refine ⟨h.pipe, h.served, fun j hj => ?_, h.owners.setCall hwrites⟩
  by_cases heq : j = k
  · subst heq
    refine .ended (e := e) ?_ ?_
    · rw [hcall]
      exact hended
    · rw [hcall]
      exact hf
  · exact (h.others j hj heq).setCall h.pipe heq call

/-- The write callback is called. -/
theorem Running.callback (h : s.Running c k) (hloops : Loops s.pipe (s.calls k) (s.calls k).writes)
    (hmore : (s.calls k).offset < (s.calls k).data.length) :
    (s.callback c k).pipe.Inv ∧ Writing (s.callback c k).pipe ((s.callback c k).calls k) (s.calls k).writes
        s.pipe.writes ∧ (s.callback c k).Owners ∧
      (∀ j < s.count, j ≠ k → (s.callback c k).CallInv j) ∧
      s.pipe.Begins (s.callback c k).pipe c (s.calls k).window := by
  have hbegins := h.served.write h.pipe h.curr (s.calls k).window
  have hinv := h.pipe.write h.curr h.ready (s.calls k).window
  have hold : ∀ w, w ∈ (s.pipe.write c (s.calls k).window).results.map Prod.fst → w ≠ s.pipe.writes →
      w ∈ s.pipe.results.map Prod.fst := fun w hw hne => by
    rcases hbegins.results with hres | ⟨r, hres, -⟩
    · rwa [hres] at hw
    · rw [hres, List.map_append] at hw
      exact (List.mem_append.mp hw).elim id fun hlast => absurd (List.mem_singleton.mp hlast) hne
  have hg : Grows s.pipe (s.pipe.write c (s.calls k).window) := by
    refine ⟨h.pipe, hinv, ?_, ?_, fun w hw => ?_⟩
    · rcases hbegins.results with hres | ⟨r, hres, -⟩
      · rw [hres]
        exact List.Subset.refl _
      · rw [hres]
        exact List.subset_append_left ..
    · rw [hbegins.writes]
      exact Nat.le_succ _
    · rw [hbegins.data, Function.update_of_ne (Nat.ne_of_lt hw)]
  have hcall : (s.callback c k).calls k =
      { s.calls k with writes := (s.calls k).writes ++ [s.pipe.writes] } := Function.update_self ..
  refine ⟨hinv, ?_, fun w j hj => ?_, fun j hj hne => ?_, hbegins⟩
  · rw [hcall]
    have hgrown := hloops.grow hg
    refine ⟨⟨hgrown.ended, hgrown.returned, hgrown.taken, hgrown.offset, hgrown.cleaned, hgrown.size, hgrown.once⟩,
      hmore, rfl, ?_⟩
    show (s.pipe.write c (s.calls k).window).data s.pipe.writes = (s.calls k).window
    rw [hbegins.data, Function.update_self]
  · have hsucc : (s.callback c k).pipe.writes = s.pipe.writes + 1 := hbegins.writes
    rw [hsucc]
    by_cases hw : w = s.pipe.writes
    · subst hw
      have hjk : some k = some j := (Function.update_self (f := s.owner) ..).symm.trans hj
      obtain rfl := Option.some.inj hjk
      refine ⟨h.here, ?_, Nat.lt_succ_self _⟩
      rw [hcall]
      exact List.mem_append_right _ (List.mem_singleton_self _)
    · have hown : s.owner w = some j := (Function.update_of_ne (f := s.owner) hw _).symm.trans hj
      obtain ⟨hlt, hmem, hold⟩ := h.owners w j hown
      refine ⟨hlt, ?_, Nat.lt_succ_of_lt hold⟩
      by_cases hjk : j = k
      · subst hjk
        rw [hcall]
        exact List.mem_append_left _ hmem
      · show w ∈ (Function.update s.calls k _ j).writes
        rw [Function.update_of_ne hjk]
        exact hmem
  · refine (h.others j hj hne).grow hg (Function.update_of_ne hne _ _) (fun w hw => ?_) fun w hlt hw hwait hin => ?_
    · have hne' : w ≠ s.pipe.writes := Nat.ne_of_lt (h.owners w j hw).2.2
      show Function.update s.owner s.pipe.writes (some k) w = some j
      rw [Function.update_of_ne hne']
      exact hw
    · exact hwait (hold w hin (Nat.ne_of_lt hlt))

theorem lookup_last {results : List (WriteId × Option Nat)} {w : WriteId} (hw : w ∉ results.map Prod.fst)
    (r : Option Nat) : (results ++ [(w, r)]).lookup w = some r := by
  have hnone : results.lookup w = none := List.lookup_eq_none_iff.mpr fun p hp => by
    refine bne_iff_ne.mpr ?_
    rintro rfl
    exact hw (List.mem_map_of_mem hp)
  rw [List.lookup_append, hnone, Option.none_or, List.lookup_cons_self]

/-- After its write returned a call goes on as a running one. -/
theorem Running.answered (hinv : s.pipe.Inv) (hserved : s.pipe.Served) (hcurr : s.pipe.sched.currCoro = some c)
    (hready : (s.pipe.sched.coros c).interrupted = false → (s.pipe.sched.coros c).ready = false)
    (hothers : ∀ j < s.count, j ≠ k → s.CallInv j) (howners : s.Owners) (hk : k < s.count) {ws : List WriteId}
    {w : WriteId} (h : Writing s.pipe (s.calls k) ws w) {r : Option Nat} (hw : (w, r) ∈ s.pipe.results) :
    ∃ call, (s.calls k).answered s.pipe r = .ok call ∧ (s.setCall k call).Running c k := by
  obtain ⟨call, hanswered, hwrites, hcontinues⟩ := h.answer hinv hserved hw
  refine ⟨call, hanswered, hinv, hserved, hcurr, hready, hk, ?_, fun j hj hne => ?_, howners.setCall hwrites⟩
  · have hcall : (s.setCall k call).calls k = call := Function.update_self ..
    rw [hcall]
    exact hcontinues
  · exact (hothers j hj hne).setCall hinv hne call

/-- A call that runs ends, or is suspended; its guards hold. -/
theorem Running.run {n : Nat} (hn : (s.calls k).remaining = n) (h : s.Running c k) :
    ∃ s', run c k s = .ok s' ∧ s'.Inv := by
  induction n using Nat.strongRecOn generalizing s with
  | ind n ih =>
    rw [State.run]
    dsimp only
    by_cases hended : (s.calls k).ended.isSome
    · rw [dif_pos hended]
      refine ⟨s, rfl, h.pipe, h.served, fun j hj => ?_, h.owners⟩
      by_cases heq : j = k
      · subst heq
        rcases h.mine with ⟨e, he, hf⟩ | hloops
        · exact .ended he hf
        · rw [hloops.ended] at hended
          cases hended
      · exact h.others j hj heq
    · rw [dif_neg hended]
      have hnone := Option.not_isSome_iff_eq_none.mp hended
      have hloops : Loops s.pipe (s.calls k) (s.calls k).writes := by
        rcases h.mine with ⟨e, he, -⟩ | hloops
        · exact absurd (hnone.symm.trans he) (by simp)
        · exact hloops
      by_cases hdone : (s.calls k).data.length ≤ (s.calls k).offset
      · rw [dif_pos hdone]
        exact ⟨_, rfl, h.leave rfl rfl (hloops.finish hdone)⟩
      · rw [dif_neg hdone]
        have hmore := Nat.lt_of_not_le hdone
        obtain ⟨hinv, hwriting, howners, hothers, hbegins⟩ := h.callback hloops hmore
        have hnew := h.pipe.writes.not_returned
        rcases hbegins.results with hres | ⟨r, hres, hcurr, hcoro⟩
        · have hlookup : (s.callback c k).pipe.results.lookup s.pipe.writes = none := by
            rw [hres]
            refine List.lookup_eq_none_iff.mpr fun p hp => bne_iff_ne.mpr ?_
            rintro heq
            exact hnew (heq ▸ List.mem_map_of_mem hp)
          rw [hlookup]
          refine ⟨_, rfl, hinv, hbegins.served, fun j hj => ?_, howners⟩
          by_cases heq : j = k
          · subst heq
            refine .writing hwriting (Function.update_self ..) ?_ ?_
            · rw [hbegins.writes]
              exact Nat.lt_succ_self _
            · rw [hres]
              exact hnew
          · exact hothers j hj heq
        · have hlookup : (s.callback c k).pipe.results.lookup s.pipe.writes = some r := by
            rw [hres]
            exact lookup_last hnew r
          rw [hlookup]
          have hmem : (s.pipe.writes, r) ∈ (s.callback c k).pipe.results := by
            rw [hres]
            exact List.mem_append_right _ (List.mem_singleton_self _)
          obtain ⟨call, hanswered, hrunning⟩ := Running.answered hinv hbegins.served (hcurr.trans h.curr)
            (by rw [hcoro]; exact h.ready) hothers howners h.here hwriting hmem
          have hless := answered_remaining hanswered hwriting.more hwriting.loops.ended
          have hcall : ((s.callback c k).setCall k call).calls k = call := Function.update_self ..
          have hsame : ((s.callback c k).calls k).remaining = n := by
            rw [← hn]
            show (Function.update s.calls k { s.calls k with writes := _ } k).remaining = _
            rw [Function.update_self]
            rfl
          dsimp only
          split
          · rename_i e herror
            exact absurd (herror.symm.trans hanswered) (by simp)
          · rename_i call' hok
            obtain rfl := Except.ok.inj (hok.symm.trans hanswered)
            exact ih call'.remaining (hsame ▸ hless) (by rw [hcall]) hrunning

/-! ## Every run -/

theorem Inv.start (h : s.Inv) (hcurr : s.pipe.sched.currCoro = some c)
    (hready : (s.pipe.sched.coros c).interrupted = false → (s.pipe.sched.coros c).ready = false)
    (all : Bool) (data : List α) : ∃ s', s.start c all data = .ok s' ∧ s'.Inv := by
  refine Running.run rfl ⟨h.pipe, h.served, hcurr, hready, Nat.lt_succ_self _, Or.inr ?_, fun j hj hne => ?_, ?_⟩
  · dsimp only
    rw [Function.update_self]
    exact ⟨rfl, nofun, rfl, Nat.zero_le _, rfl, Nat.le_refl _, fun _ => rfl⟩
  · have hlt : j < s.count := Nat.lt_of_le_of_ne (Nat.le_of_lt_succ hj) hne
    exact (h.calls j hlt).grow ⟨h.pipe, h.pipe, List.Subset.refl _, Nat.le_refl _, fun _ _ => rfl⟩
      (Function.update_of_ne hne _ _) (fun _ hw => hw) fun _ _ _ hw => hw
  · intro w j hj
    obtain ⟨hlt, hmem, hw⟩ := h.owners w j hj
    refine ⟨Nat.lt_succ_of_lt hlt, ?_, hw⟩
    show w ∈ (Function.update s.calls s.count _ j).writes
    rw [Function.update_of_ne (Nat.ne_of_lt hlt)]
    exact hmem

/-- The pipe gets on without the call. -/
theorem Inv.grow (h : s.Inv) {pipe : Pipe α} (hg : Grows s.pipe pipe) (hserved : pipe.Served)
    (hwaits : ∀ w < s.pipe.writes, s.owner w ≠ none → w ∉ s.pipe.results.map Prod.fst →
      w ∉ pipe.results.map Prod.fst) : ({ s with pipe := pipe } : State α).Inv :=
  ⟨hg.new, hserved, fun k hk => (h.calls k hk).grow hg rfl (fun _ hw => hw) fun w hlt hw =>
      hwaits w hlt (by rw [hw]; nofun),
    fun w k hk => let ⟨hlt, hmem, hw⟩ := h.owners w k hk; ⟨hlt, hmem, Nat.lt_of_lt_of_le hw hg.writes⟩⟩

theorem Inv.between (h : s.Inv) {pipe : Pipe α} (hinv : pipe.Inv) (hb : s.pipe.Between pipe) :
    ({ s with pipe := pipe } : State α).Inv :=
  h.grow ⟨h.pipe, hinv, fun _ hmem => hb.results.symm ▸ hmem, Nat.le_of_eq hb.writes.symm,
    fun w _ => by rw [hb.data]⟩ hb.served fun w _ _ hw => by rwa [hb.results]

theorem Inv.resume (h : s.Inv) (hcurr : s.pipe.sched.currCoro = none) (lane : Lane) :
    ∃ s', s.resume lane = .ok s' ∧ s'.Inv := by
  have hinv := h.pipe.resume hcurr lane
  cases hqueue : s.pipe.sched.runLater lane with
  | nil =>
    have hb : s.pipe.Between (s.pipe.resume lane) := h.served.resume_other h.pipe fun c rest w hc => by
      rw [hqueue] at hc
      cases hc
    exact ⟨_, by rw [State.resume, hqueue], h.between hinv hb⟩
  | cons c rest =>
    by_cases hwrite : ∃ w, (s.pipe.sched.coros c).state = .suspend (.write w)
    · obtain ⟨w, hstate⟩ := hwrite
      have hback := h.served.resume_write hqueue hstate
      obtain ⟨r, hres⟩ := hback.results
      obtain ⟨hlt, hnot, -⟩ := h.pipe.writes.waits c w hstate
      have hg : Grows s.pipe (s.pipe.resume lane) :=
        ⟨h.pipe, hinv, by rw [hres]; exact List.subset_append_left .., Nat.le_of_eq hback.writes.symm,
          fun u _ => by rw [hback.data]⟩
      have hnew : ∀ u, u ≠ w → u ∉ s.pipe.results.map Prod.fst →
          u ∉ (s.pipe.resume lane).results.map Prod.fst := fun u hu hold hin => by
        rw [hres, List.map_append] at hin
        exact (List.mem_append.mp hin).elim hold fun hlast => hu (List.mem_singleton.mp hlast)
      have hresume : s.resume lane = (s.owner w).elim (.ok { s with pipe := s.pipe.resume lane })
          fun k => ((s.calls k).answered (s.pipe.resume lane) r).bind fun call =>
            run c k (({ s with pipe := s.pipe.resume lane } : State α).setCall k call) := by
        rw [State.resume, hqueue]
        dsimp only
        rw [hstate]
        dsimp only
        rw [hres, lookup_last hnot r]
        cases s.owner w with
        | none => rfl
        | some k => dsimp only [Option.elim]; cases (s.calls k).answered (s.pipe.resume lane) r <;> rfl
      rw [hresume]
      cases howner : s.owner w with
      | none =>
        refine ⟨_, rfl, h.grow hg hback.served fun u _ hown hold => hnew u ?_ hold⟩
        rintro rfl
        exact hown howner
      | some k =>
        obtain ⟨hk, hmem, -⟩ := h.owners w k howner
        have hmine : ∃ ws, Writing s.pipe (s.calls k) ws w := by
          cases h.calls k hk with
          | ended hended hf => exact absurd (hf.returned w hmem) hnot
          | @writing ws u hw =>
            rw [hw.last] at hmem
            rcases List.mem_append.mp hmem with hin | hin
            · exact absurd (hw.loops.returned w hin) hnot
            · rw [List.mem_singleton.mp hin]
              exact ⟨ws, hw⟩
        obtain ⟨ws, hw⟩ := hmine
        have hwriting : Writing (s.pipe.resume lane) (s.calls k) ws w :=
          ⟨hw.loops.grow hg, hw.more, hw.last, (hg.data w hlt).trans hw.window⟩
        have hcoro : (s.pipe.resume lane).sched.coros c =
            { s.pipe.sched.coros c with ready := false, state := .running } := by
          rw [StreamPipe.State.resume, hqueue]
          dsimp only
          rw [hstate]
          show (s.pipe.sched.reschedule lane).coros c = _
          rw [s.pipe.sched.reschedule_first hqueue, hstate]
        have hrun : (s.pipe.resume lane).sched.currCoro = some c :=
          (hinv.sched.running c).mp (by rw [hcoro])
        have hothers : ∀ j < s.count, j ≠ k →
            ({ s with pipe := s.pipe.resume lane } : State α).CallInv j := fun j hj hne =>
          (h.calls j hj).grow hg rfl (fun _ hu => hu) fun u _ hown hold => hnew u (by
            rintro rfl
            exact hne (Option.some.inj (hown.symm.trans howner))) hold
        obtain ⟨call, hanswered, hrunning⟩ := Running.answered
          (s := { s with pipe := s.pipe.resume lane }) hinv hback.served hrun
          (fun _ => by rw [hcoro]) hothers
          (fun u j hj => ⟨(h.owners u j hj).1, (h.owners u j hj).2.1, by rw [hback.writes]; exact (h.owners u j hj).2.2⟩)
          hk hwriting (r := r) (by rw [hres]; exact List.mem_append_right _ (List.mem_singleton_self _))
        dsimp only [Option.elim] at hanswered ⊢
        rw [hanswered]
        exact Running.run rfl hrunning
    · have hother : ∀ c' rest' w, s.pipe.sched.runLater lane = c' :: rest' →
          (s.pipe.sched.coros c').state ≠ .suspend (.write w) := fun c' rest' w hc hstate => by
        rw [hqueue] at hc
        cases hc
        exact hwrite ⟨w, hstate⟩
      have hb := h.served.resume_other h.pipe hother
      refine ⟨_, ?_, h.between hinv hb⟩
      rw [State.resume, hqueue]
      dsimp only
      split
      · rename_i w hstate
        exact absurd ⟨w, hstate⟩ hwrite
      · rfl

/-- No event of an orderly run fails, and each keeps the invariant. -/
theorem Inv.exec (h : s.Inv) {e : SinkEvent α} (hok : s.allowed e) (hnq : s.Undisturbed e) :
    ∃ s', s.exec e = .ok s' ∧ s'.Inv := by
  cases e with
  | call all data =>
    obtain ⟨c, hcurr⟩ := Option.isSome_iff_exists.mp hok
    rw [State.exec, hcurr]
    exact h.start hcurr (hnq c hcurr) all data
  | other e =>
    have hgo : ∀ pipe, s.pipe.exec e = .ok pipe → (∀ data, e ≠ .write data) → (∀ lane, e ≠ .resume lane) →
        s.pipe.allowed e → s.exec (.other e) = (s.pipe.exec e).map (fun pipe => { s with pipe }) →
        ∃ s', s.exec (.other e) = .ok s' ∧ s'.Inv := fun pipe hrun hwrite hresume hok heq => by
      rw [heq, hrun]
      exact ⟨_, rfl, h.between (h.pipe.exec hok hnq hrun) (h.served.exec hwrite hresume hrun)⟩
    cases e with
    | write data => exact hok.elim
    | resume lane => exact h.resume hok lane
    | read count =>
      have hcurr : s.pipe.sched.currCoro.isSome = true := hok
      obtain ⟨c, hcurr⟩ := Option.isSome_iff_exists.mp hcurr
      exact hgo (s.pipe.read c count) (by rw [StreamPipe.State.exec, hcurr]) (by simp) (by simp) hok rfl
    | spawn _ | close | drop | reject | cancel _ | shield _ | park | unpark _ | finish _ =>
      exact hgo _ rfl (by simp) (by simp) hok rfl

theorem Inv.fresh (capacity : Nat) (cleanup : Bool) : (fresh α capacity cleanup).Inv :=
  ⟨.fresh capacity cleanup, .fresh capacity cleanup, nofun, nofun⟩

theorem Inv.of_reachable {capacity : Nat} {cleanup : Bool} (h : (orderly α capacity cleanup).Reachable s) : s.Inv :=
  System.Reachable.invariant (S := orderly α capacity cleanup) (I := State.Inv)
    (fun _ hs => hs ▸ .fresh capacity cleanup) (fun s e s' hinv hok hrun => by
      obtain ⟨s'', hrun', hinv'⟩ := hinv.exec hok.1 hok.2
      obtain rfl := Except.ok.inj (hrun'.symm.trans hrun)
      exact hinv') h

/-- What the callers of a sink rely on. -/
structure Accounted (s : State α) : Prop where
  ended : ∀ k < s.count, ∀ e, (s.calls k).ended = some e → Owned s.pipe (s.calls k) e
  /-- At any time what was taken and what was cleaned up are the first values of the view. -/
  first : ∀ k < s.count, (s.calls k).taken s.pipe ++ (s.calls k).cleaned <+: (s.calls k).data
  /-- A call that did not end waits for its last write. -/
  waiting : ∀ k < s.count, (s.calls k).ended = none → ∃ w c, (s.calls k).writes.getLast? = some w ∧
    (s.pipe.sched.coros c).state = .suspend (.write w)
  /-- Its loop comes to an end: a call makes no more writes than it has values. -/
  writes : ∀ k < s.count, (s.calls k).writes.length ≤ (s.calls k).data.length
  /-- The guards hold, whatever comes next. -/
  guards : ∀ e, s.allowed e → s.Undisturbed e → ∃ s', s.exec e = .ok s'

theorem Inv.accounted (h : s.Inv) : s.Accounted where
  ended k hk e he := by
    cases h.calls k hk with
    | ended hended hf =>
      obtain rfl := Option.some.inj (hended.symm.trans he)
      exact hf.owned
    | writing hw => exact absurd (hw.loops.ended.symm.trans he) nofun
  first k hk := by
    cases h.calls k hk with
    | ended _ hf => exact hf.first
    | writing hw =>
      rw [Loops.take h.pipe hw, hw.loops.cleaned, List.append_nil]
      exact List.take_prefix ..
  waiting k hk hnone := by
    cases h.calls k hk with
    | ended hended => exact absurd (hnone.symm.trans hended) nofun
    | @writing ws w hw _ hlt hwait =>
      obtain ⟨c, hc⟩ := (h.pipe.writes.all w hlt).resolve_left hwait
      exact ⟨w, c, by rw [hw.last, List.getLast?_concat], hc⟩
  writes k hk := by
    cases h.calls k hk with
    | ended _ hf => exact hf.size
    | writing hw =>
      have hsize := hw.size
      have hmore := hw.more
      omega
  guards e hok hnq := let ⟨s', hrun, _⟩ := h.exec hok hnq; ⟨s', hrun⟩

end State

/-- As long as no coroutine calls the sink with an entry of its own in the run queue, each
value of a view that `write_all` got is taken once by the pipe or cleaned up once, and its
progress guard holds. -/
theorem sink_accounted (α : Type) (capacity : Nat) (cleanup : Bool) (s : State α)
    (h : (orderly α capacity cleanup).Reachable s) : s.Accounted :=
  (State.Inv.of_reachable h).accounted

/-- A `write_all` waits for a reader when the readable end is dropped: both values are cleaned
up by the drop. -/
theorem sink_accounted_dropped : ∃ s : State Nat,
    (s.calls 0).ended = some ⟨.wroteAll false, false, true⟩ ∧ s.pipe.reclaimed = [(0, [7, 8])] ∧
      s.Accounted := by
  have h₀ : (orderly Nat 0 true).Reachable (State.fresh Nat 0 true) := .init _ rfl
  have h₁ := h₀.step _ _ (SinkEvent.other (Event.spawn 0)) ⟨trivial, trivial⟩ rfl
  have h₂ := h₁.step _ _ (SinkEvent.other (Event.resume 0)) ⟨rfl, trivial⟩ rfl
  have h₃ := h₂.step _ _ (SinkEvent.call true [7, 8]) ⟨rfl, fun c hc _ => by cases hc; rfl⟩
    (by show State.run 0 0 _ = _; rw [State.run]; rfl)
  have h₄ := h₃.step _ _ (SinkEvent.other Event.drop) ⟨trivial, trivial⟩ rfl
  have h₅ := h₄.step _ _ (SinkEvent.other (Event.resume 0)) ⟨rfl, trivial⟩
    (by show State.run 0 0 _ = _; rw [State.run]; rfl)
  exact ⟨_, rfl, rfl, sink_accounted Nat 0 true _ h₅⟩

/-- A coroutine that is cancelled while it runs shields itself and calls `write_all`. Its write
returns with nothing taken, though the sink is open. -/
theorem progress_guard_fails : ∃ (s : State Nat) (e : SinkEvent Nat), (system Nat 0 true).Reachable s ∧
    s.allowed e ∧ isOpen s.pipe = true ∧ s.exec e = .error "guard failed" := by
  have h₀ : (system Nat 0 true).Reachable (State.fresh Nat 0 true) := .init _ rfl
  have h₁ := h₀.step _ _ (SinkEvent.other (Event.spawn 0)) trivial rfl
  have h₂ := h₁.step _ _ (SinkEvent.other (Event.resume 0)) rfl rfl
  have h₃ := h₂.step _ _ (SinkEvent.other (Event.cancel 0)) trivial rfl
  have h₄ := h₃.step _ _ (SinkEvent.other (Event.shield true)) rfl rfl
  have h₅ := h₄.step _ _ (SinkEvent.call true [7]) rfl (by show State.run 0 0 _ = _; rw [State.run]; rfl)
  exact ⟨_, SinkEvent.other (Event.resume 0), h₅, rfl, rfl, rfl⟩

end Sink

end Moonbit

end WitBindgen
