import WitBindgen.Rt.EndOfLife
import WitBindgen.Rt.Returned

/-!
# A read and its memory

The host writes the elements of a read through the pointer it was given, behind the
elements of the `Vec` or into the slab, and the read takes as many of them as the code
says: by `set_len`, or by lifting each from the slab and pushing it. What was in the
`Vec` stays, and the elements come behind it in the order of the source.
-/

namespace WitBindgen

namespace Rt

open Blocks (Pointer Memory)

/-- The elements a result reports. -/
def StreamResult.count : StreamResult → Nat
  | .complete amt => amt
  | .dropped | .cancelled => 0

namespace Stream

variable {α : Type} (O : StreamOps α)

/-! ## Memory -/

/-- The contents of a `Vec`. -/
def Buffer.items (m : Memory Block) (buf : Buffer) : List α :=
  (List.range buf.length).map fun i => O.load (m.read (buf.at O i) O.rustSize)

/-- The value of the element numbered `n` of the source. -/
def value (n : Nat) : α :=
  if O.nativeAbiMatchesCanonicalAbi then O.load (O.source n) else O.lift (O.source n)

/-- The values of `amt` elements of the source, from the one numbered `n`. -/
def slice (n amt : Nat) : List α := (List.range amt).map fun i => value O (n + i)

variable {O} {e e' : End α} {m : Memory Block} {buf : Buffer}

theorem slice_zero (n : Nat) : slice O n 0 = [] := rfl

theorem slice_add (n a b : Nat) : slice O n (a + b) = slice O n a ++ slice O (n + a) b := by
  rw [slice, List.range_add, List.map_append, List.map_map]
  congr 1
  exact List.map_congr_left fun i _ => congrArg (value O) (Nat.add_assoc n a i).symm

theorem items_congr {m' : Memory Block} (h : ∀ i < buf.length,
    m'.read (buf.at O i) O.rustSize = m.read (buf.at O i) O.rustSize) : buf.items O m' = buf.items O m :=
  List.map_congr_left fun i hi => congrArg O.load (h i (List.mem_range.mp hi))

/-- The elements of a `Vec` end where its spare capacity begins. -/
theorem Buffer.at_le {i : Nat} (hi : i < buf.length) :
    (buf.at O i).offset + O.rustSize ≤ (buf.at O buf.length).offset := by
  have hle : (i + 1) * O.rustSize ≤ buf.length * O.rustSize := Nat.mul_le_mul_right _ hi
  rwa [Nat.succ_mul] at hle

theorem items_append (m : Memory Block) (buf : Buffer) (amt : Nat) :
    Buffer.items O m { buf with length := buf.length + amt } = buf.items O m ++
      (List.range amt).map fun i => O.load (m.read (buf.at O (buf.length + i)) O.rustSize) := by
  rw [Buffer.items, List.range_add, List.map_append, List.map_map]
  rfl

theorem items_push (m : Memory Block) (buf : Buffer) (a : α) :
    Buffer.items O (m.write (buf.at O buf.length) (O.store a)) { buf with length := buf.length + 1 } =
      buf.items O m ++ [a] := by
  have hpushed := Memory.read_write (m := m) (buf.at O buf.length) (O.store a)
  rw [O.length_store] at hpushed
  rw [items_append]
  congr 1
  · exact items_congr fun i hi => Memory.read_write_of_apart (.inr (Buffer.at_le hi))
  · have hload : O.load ((m.write (buf.at O buf.length) (O.store a)).read (buf.at O (buf.length + 0))
        O.rustSize) = a := by rw [Nat.add_zero, hpushed, O.load_store]
    exact congrArg (· :: []) hload

/-- What the host writes for a read leaves the elements alone that are in the `Vec`. -/
theorem items_writeEach {state : ReadState} (hapart : (state.2.getD nullPtr).block ≠ .vec state.1.block)
    (f : Nat → List UInt8) (n : Nat) :
    state.1.items O (m.writeEach (pointerOf O state) O.elemSize f n) = state.1.items O m := by
  refine items_congr fun i hi => Memory.read_writeEach_of_apart ?_ n
  rw [pointerOf]
  split
  · exact .inr (Buffer.at_le hi)
  · exact .inl fun heq => hapart heq.symm

/-! ## Logs -/

/-- What a log says was lifted. -/
def liftedIn (log : List (Step α)) : List (List UInt8) :=
  log.filterMap fun
    | .lift bytes => some bytes
    | _ => none

/-- The elements that the codes of a log report, code by code. -/
def reportedIn (log : List (Step α)) : List Nat :=
  (log.filterMap fun
    | .told code => some (amount code)
    | _ => none).filter (0 < ·)

theorem lifted_append (l l' : List (Step α)) : liftedIn (l ++ l') = liftedIn l ++ liftedIn l' :=
  List.filterMap_append

theorem reported_append (l l' : List (Step α)) :
    reportedIn (l ++ l') = reportedIn l ++ reportedIn l' := by
  rw [reportedIn, List.filterMap_append, List.filter_append]
  rfl

theorem lifted_lifts (items : List (List UInt8)) :
    liftedIn (items.map (Step.lift (α := α))) = items := by
  induction items with
  | nil => rfl
  | cons a items ih => exact congrArg (a :: ·) ih

theorem reported_lifts (items : List (List UInt8)) :
    reportedIn (items.map (Step.lift (α := α))) = [] := by
  induction items with
  | nil => rfl
  | cons a items ih => exact ih

/-! ## One read -/

variable (O) in
/-- What is known of a reader whose reads got so many elements each, with `coming` on top
that the host has put in place. -/
structure Accounts (counts : List Nat) (coming : Nat) (e : End α) : Prop where
  received : e.received = counts.sum + coming
  lifted : liftedIn e.log =
    if O.nativeAbiMatchesCanonicalAbi then [] else (List.range counts.sum).map O.source
  reported : reportedIn e.log = counts.filter (0 < ·)

variable (O) in
/-- The host is reading, on behalf of a `Vec` that holds `before`. -/
structure Reading (counts : List Nat) (before : List α) (e : End α) (state : ReadState) : Prop where
  accounts : Accounts O counts 0 e
  target : e.target = some (pointerOf O state)
  items : state.1.items O e.memory = before
  apart : (state.2.getD nullPtr).block ≠ .vec state.1.block

variable (O) in
/-- The host has put `amt` elements where they belong. -/
structure InPlace (counts : List Nat) (before : List α) (e : End α) (state : ReadState) (amt : Nat) :
    Prop where
  accounts : Accounts O counts amt e
  target : e.target = none
  items : state.1.items O e.memory = before
  apart : (state.2.getD nullPtr).block ≠ .vec state.1.block
  there : ∀ i < amt, e.memory.read ((pointerOf O state).add (i * O.elemSize)) O.elemSize =
    O.source (counts.sum + i)

variable (O) in
/-- A code is to be looked at. -/
def ToLookAt (counts : List Nat) (before : List α) (e : End α) (state : ReadState) (code : Code) : Prop :=
  if code = blocked then Reading O counts before e state
  else InPlace O counts before e state (amount code)

variable (O) in
/-- A read that returned, and what it appended. -/
structure Appended (counts : List Nat) (before : List α) (e : End α) (r : StreamResult × Buffer) :
    Prop where
  accounts : Accounts O (counts ++ [r.1.count]) 0 e
  target : e.target = none
  items : r.2.items O e.memory = before ++ slice O counts.sum r.1.count
  gone : r.1 = .dropped → Gone e.log

variable {counts : List Nat} {before : List α} {state : ReadState} {amt : Nat} {code : Code}

/-- A step that neither lifts nor looks at a code. -/
theorem Accounts.still {coming : Nat} (s : Step α) (h : Accounts O counts coming e)
    (hlift : liftedIn [s] = []) (htold : reportedIn [s] = []) :
    Accounts O counts coming { e with log := e.log ++ [s] } where
  received := h.received
  lifted := by rw [lifted_append, hlift, List.append_nil, h.lifted]
  reported := by rw [reported_append, htold, List.append_nil, h.reported]

theorem reported_told (code : Code) : reportedIn [Step.told (α := α) code] = [amount code].filter (0 < ·) := rfl

/-- The host answers a read, or reports it. -/
theorem transfer_toLookAt (state : ReadState) (haccounts : Accounts O counts 0 e) (hitems : state.1.items O e.memory = before)
    (hapart : (state.2.getD nullPtr).block ≠ .vec state.1.block) (code : Code) :
    ToLookAt O counts before (e.transfer O (pointerOf O state) code) state code := by
  rw [ToLookAt, End.transfer]
  split
  · exact ⟨⟨haccounts.received, haccounts.lifted, haccounts.reported⟩, rfl, hitems, hapart⟩
  · refine ⟨⟨?_, haccounts.lifted, haccounts.reported⟩, rfl, ?_, hapart, fun i hi => ?_⟩
    · exact congrArg (· + amount code) haccounts.received
    · exact (items_writeEach hapart _ _).trans hitems
    · rw [← Nat.add_zero counts.sum, ← haccounts.received]
      exact Memory.read_writeEach (fun i => O.length_source _) hi

/-- Where the host has not put anything in place yet. -/
theorem ToLookAt.reading (h : ToLookAt O counts before e state code) (htarget : e.target.isSome) :
    Reading O counts before e state := by
  rw [ToLookAt] at h
  split at h
  · exact h
  · rw [h.target] at htarget
    cases htarget

theorem ToLookAt.accounts (h : ToLookAt O counts before e state code) :
    ∃ coming, Accounts O counts coming e := by
  rw [ToLookAt] at h
  split at h <;> exact ⟨_, h.accounts⟩

theorem Reading.report (h : Reading O counts before e state) (code : Code) :
    ToLookAt O counts before (e.report O code) state code := by
  rw [End.report, h.target]
  exact transfer_toLookAt state h.accounts h.items h.apart code

theorem liftInto_succ (buf : Buffer) (ptr : Pointer Block) (amt : Nat) (e : End α) :
    liftInto O buf ptr (amt + 1) e =
      liftInto O { buf with length := buf.length + 1 } (ptr.add O.elemSize) amt { e with
        memory := e.memory.write (buf.at O buf.length) (O.store (O.lift (e.memory.read ptr O.elemSize)))
        log := e.log ++ [.lift (e.memory.read ptr O.elemSize)] } := rfl

/-- The loop over the slab lifts what is there and pushes it. -/
theorem liftInto_run (amt : Nat) : ∀ (n : Nat) (buf : Buffer) (ptr : Pointer Block) (e : End α),
    ptr.block ≠ .vec buf.block →
    (∀ i < amt, e.memory.read (ptr.add (i * O.elemSize)) O.elemSize = O.source (n + i)) →
    ∃ e', liftInto O buf ptr amt e = .ok ({ buf with length := buf.length + amt }, e') ∧
      e'.target = e.target ∧ e'.received = e.received ∧
      e'.log = e.log ++ ((List.range amt).map fun i => O.source (n + i)).map Step.lift ∧
      Buffer.items O e'.memory { buf with length := buf.length + amt } =
        buf.items O e.memory ++ (List.range amt).map fun i => O.lift (O.source (n + i)) := by
  induction amt with
  | zero =>
    intro n buf ptr e _ _
    exact ⟨e, rfl, rfl, rfl, (List.append_nil _).symm, (List.append_nil _).symm⟩
  | succ amt ih =>
    intro n buf ptr e hapart hthere
    have hfirst : e.memory.read ptr O.elemSize = O.source n := by
      have hzero := hthere 0 (Nat.succ_pos _)
      rwa [Nat.zero_mul, Pointer.add_zero, Nat.add_zero] at hzero
    let pushed : End α := { e with
      memory := e.memory.write (buf.at O buf.length) (O.store (O.lift (O.source n)))
      log := e.log ++ [.lift (O.source n)] }
    have hstep := liftInto_succ (O := O) buf ptr amt e
    rw [hfirst] at hstep
    -- a push writes into the `Vec`, and leaves what is still to be lifted alone
    have hrest : ∀ i < amt, pushed.memory.read ((ptr.add O.elemSize).add (i * O.elemSize)) O.elemSize =
        O.source (n + 1 + i) := by
      intro i hi
      rw [Memory.read_write_of_apart (.inl hapart), Pointer.add_add, Nat.add_comm, ← Nat.succ_mul,
        hthere (i + 1) (Nat.succ_lt_succ hi), Nat.add_assoc, Nat.add_comm i]
    obtain ⟨e', hrun, htarget, hreceived, hlog, hitems⟩ :=
      ih (n + 1) { buf with length := buf.length + 1 } (ptr.add O.elemSize) pushed hapart hrest
    have hlength : buf.length + 1 + amt = buf.length + (amt + 1) := by omega
    have hrange : ∀ {β : Type} (f : Nat → β), (List.range (amt + 1)).map (fun i => f (n + i)) =
        f n :: (List.range amt).map fun i => f (n + 1 + i) := by
      intro β f
      rw [List.range_succ_eq_map, List.map_cons, List.map_map]
      congr 1
      exact List.map_congr_left fun i _ => congrArg f (by simp; omega)
    rw [hlength] at hrun hitems
    refine ⟨e', hstep.trans hrun, htarget, hreceived, ?_, ?_⟩
    · rw [hlog, hrange O.source, List.append_assoc]
      rfl
    · rw [hitems, hrange fun n => O.lift (O.source n)]
      change Buffer.items O (e.memory.write _ _) _ ++ _ = _
      rw [items_push, List.append_assoc]
      rfl

theorem Accounts.told {code : Code} (h : Accounts O counts (amount code) e) (s : List (List UInt8))
    (hlog : e'.log = e.log ++ [.told code] ++ s.map Step.lift) (hreceived : e'.received = e.received)
    (hs : s = if O.nativeAbiMatchesCanonicalAbi then [] else
      (List.range (amount code)).map fun i => O.source (counts.sum + i)) :
    Accounts O (counts ++ [amount code]) 0 e' where
  received := by rw [hreceived, h.received, List.sum_append, List.sum_singleton, Nat.add_zero]
  lifted := by
    have htold : liftedIn [Step.told (α := α) code] = [] := rfl
    rw [hlog, lifted_append, lifted_append, htold, List.append_nil, lifted_lifts, h.lifted, hs]
    split
    · rfl
    · rw [List.sum_append, List.sum_singleton, List.range_add, List.map_append, List.map_map]
      rfl
  reported := by
    rw [hlog, reported_append, reported_append, reported_told, reported_lifts, h.reported,
      List.append_nil, List.filter_append]

/-- The elements that are in place are taken into the `Vec`. -/
theorem readInto_inPlace (h : InPlace O counts before e state (amount code)) (hamt : amount code = amt) :
    Ends (fun _ => True) (fun r => Accounts O (counts ++ [amt]) 0 r.2 ∧ r.2.target = none ∧
      r.1.items O r.2.memory = before ++ slice O counts.sum amt)
      (readInto O state amt { e with log := e.log ++ [.told code] }) := by
  subst hamt
  obtain ⟨buf, cleanup⟩ := state
  rw [readInto]
  split
  · exact trivial
  · split
    -- by `set_len`: the bytes of the host are the elements
    · rename_i hnative
      have hthere : ∀ i < amount code, e.memory.read (buf.at O (buf.length + i)) O.rustSize =
          O.source (counts.sum + i) := by
        intro i hi
        have hplace : buf.at O (buf.length + i) =
            (pointerOf O (buf, cleanup)).add (i * O.elemSize) := by
          rw [pointerOf, if_pos hnative, ← O.rustSize_eq hnative]
          exact congrArg (Pointer.mk _) (Nat.add_mul ..)
        rw [hplace, O.rustSize_eq hnative]
        exact h.there i hi
      refine ⟨h.accounts.told [] (List.append_nil _).symm rfl (by rw [if_pos hnative]), h.target, ?_⟩
      refine (items_append e.memory buf _).trans ?_
      rw [h.items]
      congr 1
      refine List.map_congr_left fun i hi => ?_
      rw [hthere i (List.mem_range.mp hi), value, if_pos hnative]
    -- from the slab, one by one
    · rename_i hnative
      have hpointer : pointerOf O (buf, cleanup) = cleanup.getD nullPtr := by
        rw [pointerOf, if_neg hnative]
      have hthere := h.there
      rw [hpointer] at hthere
      obtain ⟨e', hrun, htarget, hreceived, hlog, hitems⟩ := liftInto_run (amount code) counts.sum
        buf (cleanup.getD nullPtr) { e with log := e.log ++ [.told code] } h.apart hthere
      rw [hrun]
      refine ⟨h.accounts.told _ hlog hreceived (by rw [if_neg hnative]), htarget.trans h.target, ?_⟩
      refine hitems.trans ?_
      have hbefore : buf.items O e.memory = before := h.items
      rw [hbefore]
      congr 1
      exact List.map_congr_left fun i _ => by rw [value, if_neg hnative]

/-- A read of which nothing more is to be taken. -/
theorem InPlace.nothing (result : StreamResult) (h : InPlace O counts before e state (amount code))
    (hcount : result.count = 0) (hzero : amount code = 0)
    (hdrops : result = .dropped → tellsDropped code = true) :
    Appended O counts before { e with log := e.log ++ [.told code] } (result, state.1) where
  accounts := by
    have hnone : ([] : List (List UInt8)) = if O.nativeAbiMatchesCanonicalAbi then [] else
        (List.range (amount code)).map fun i => O.source (counts.sum + i) := by
      rw [hzero]
      split <;> rfl
    have htold : Accounts O (counts ++ [amount code]) 0 { e with log := e.log ++ [.told code] } :=
      h.accounts.told [] (List.append_nil _).symm rfl hnone
    rw [hzero] at htold
    change Accounts O (counts ++ [result.count]) 0 _
    rwa [hcount]
  target := h.target
  items := by rw [hcount, slice_zero, List.append_nil]; exact h.items
  gone hdropped := ⟨.told code, by simp, hdrops hdropped⟩

theorem decode_blocked (h : ReturnCode.decode code = some .blocked) : code = blocked := by
  rw [ReturnCode.decode] at h
  split at h
  · assumption
  · dsimp only at h
    split at h
    · cases h
    · split at h
      · cases h
      · split at h <;> cases h

/-- What a code makes of a read. -/
theorem readUpdate_returns (h : ToLookAt O counts before e state code) :
    Ends (fun _ => True) (fun r : Except ReadState (StreamResult × Buffer) × End α =>
      match r.1 with
      | .ok result => Appended O counts before r.2 result
      | .error state' => Reading O counts before r.2 state') (readUpdate O state code e) := by
  rw [readUpdate, update]
  cases hcode : ReturnCode.decode code with
  | none =>
    rw [decode, hcode]
    exact trivial
  | some code' =>
    rw [decode_some hcode]
    have hamount := amount.eq_def code
    rw [hcode] at hamount
    rw [ToLookAt] at h
    cases code' with
    | blocked =>
      rw [if_pos (decode_blocked hcode)] at h
      have hnone : reportedIn [Step.told (α := α) code] = [] := by rw [reported_told, hamount]; rfl
      exact ⟨h.accounts.still _ rfl hnone, h.target, h.items, h.apart⟩
    | completed amt =>
      rw [if_neg fun hblocked => by rw [hblocked] at hcode; cases hcode] at h
      refine (readInto_inPlace h hamount).bind fun r hr => ?_
      exact ⟨hr.1, hr.2.1, hr.2.2, by simp⟩
    | cancelled amt =>
      rw [if_neg fun hblocked => by rw [hblocked] at hcode; cases hcode] at h
      cases amt with
      | zero => exact h.nothing .cancelled rfl hamount (by simp)
      | succ amt =>
        refine (readInto_inPlace h hamount).bind fun r hr => ?_
        exact ⟨hr.1, hr.2.1, hr.2.2, by simp⟩
    | dropped amt =>
      rw [if_neg fun hblocked => by rw [hblocked] at hcode; cases hcode] at h
      -- only the drop alone is returned as one
      cases amt with
      | zero =>
        refine h.nothing .dropped rfl hamount fun _ => ?_
        rw [tellsDropped, hcode]
      | succ amt =>
        refine (readInto_inPlace h hamount).bind fun r hr => ?_
        exact ⟨⟨hr.1.received, hr.1.lifted, hr.1.reported⟩, hr.2.1, hr.2.2, by simp⟩

/-- A read that is started is answered. -/
theorem readStart_toLookAt (answer : Code) (haccounts : Accounts O counts 0 e) (htarget : e.target = none) :
    Ends (fun _ => True) (fun r => ToLookAt O counts (buf.items O e.memory) r.2 r.1.2 r.1.1)
      (readStart O buf answer e) := by
  cases hdone : e.done with
  | true =>
    rw [readStart_done buf answer hdone]
    have hzero : amount dropped = 0 := by decide
    change ToLookAt O counts (buf.items O e.memory) e (buf, none) dropped
    rw [ToLookAt, if_neg (by decide), hzero]
    exact ⟨haccounts, htarget, rfl, nofun, nofun⟩
  | false =>
    rw [readStart_open hdone]
    refine (readPointer_still buf e).bind fun r hr => ?_
    obtain ⟨⟨ptr, cleanup⟩, e₁⟩ := r
    obtain ⟨rfl, hptr, hapart⟩ := hr
    refine (readHandle_ends e₁).bind fun r hr => ?_
    obtain ⟨handle, e₂⟩ := r
    obtain rfl : e₂ = e₁ := hr
    have hasked := haccounts.still (.startRead handle ptr (min buf.spare maxLength)) rfl rfl
    have hptr' : ptr = pointerOf O (buf, cleanup) := hptr
    rw [hptr'] at hasked ⊢
    exact transfer_toLookAt (buf, cleanup) hasked rfl hapart answer

variable (O) in
/-- A read into a `Vec` that holds `before`, after reads that got so many elements each. -/
def readReturns (counts : List Nat) (before : List α) : (readOp O).Returns where
  Fresh e buf := Accounts O counts 0 e ∧ End.target (α := α) e = none ∧
    Buffer.items O (End.memory (α := α) e) buf = before
  Live e state := Reading O counts before e state
  Told e state code := ToLookAt O counts before e state code
  Result e r := Appended O counts before e r
  Cancelled e r := Appended O counts before e r
  start buf answer e h := by
    obtain ⟨haccounts, htarget, rfl⟩ := h
    exact readStart_toLookAt (O := O) answer haccounts htarget
  update state code e h := by
    refine (readUpdate_returns (O := O) h).mono fun r hr => ?_
    obtain ⟨r, e'⟩ := r
    cases r with
    | ok result => exact hr
    | error state' => exact hr
  startCancelled buf e h := by
    obtain ⟨haccounts, htarget, hitems⟩ := h
    have hcounts : Accounts O (counts ++ [0]) 0 e := by
      refine ⟨?_, ?_, ?_⟩
      · rw [haccounts.received]; simp
      · rw [haccounts.lifted]; simp
      · rw [haccounts.reported]; simp
    exact ⟨hcounts, htarget, hitems.trans (List.append_nil _).symm, nofun⟩
  waitable state e := readHandle_ends (α := α) e
  cancel state answer e h := by
    refine (readHandle_ends (α := α) e).bind fun r hr => ?_
    obtain ⟨handle, e'⟩ := r
    obtain rfl : e' = e := hr
    have hasked : Reading O counts before { e' with log := e'.log ++ [.cancelRead handle] } state :=
      ⟨h.accounts.still _ rfl rfl, h.target, h.items, h.apart⟩
    exact hasked.report answer
  intoCancel r e h := h

end Stream

end Rt

end WitBindgen
