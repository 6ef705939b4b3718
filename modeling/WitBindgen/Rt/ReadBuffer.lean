import WitBindgen.Rt.Stream

/-!
# The memory behind a read

`StreamReadOp::start` asks the host to fill the spare capacity of a `Vec`. Where the
elements look the same on both sides the host writes into the `Vec` itself; otherwise
it writes into a slab with room for as many canonical elements as the `Vec` has room
for. The number of elements is clamped to what one operation can transfer, the slab
is not.
-/

namespace WitBindgen

namespace Rt

namespace Stream

open Blocks (Pointer)

variable {α : Type} (O : StreamOps α)

/-- The bytes from the pointer that the host gets for `cap` elements: those of the `Vec`, or
those of the slab. -/
def handed (cap : Nat) (e : End α) : Nat :=
  if O.nativeAbiMatchesCanonicalAbi then O.rustSize * cap
  else
    match usizeMul O O.elemSize cap e with
    | .ok (size, _) => size
    | .error _ => 0

/-- A read is started as it should be. -/
structure StartsSafely (buf : Buffer) (answer : Code) (e : End α) : Prop where
  /-- The size of the slab fits a `usize`. -/
  exact : e.done = false → O.nativeAbiMatchesCanonicalAbi = false →
    O.elemSize * buf.spare < 2 ^ 32
  /-- There is no panic, and the host is asked for no more than there is room for. -/
  returns : ∃ r e' steps, readStart O buf answer e = .ok (r, e') ∧ e'.log = e.log ++ steps ∧
    ∀ handle ptr len, Step.startRead handle ptr len ∈ steps →
      len * O.elemSize ≤ handed O buf.spare e

/-- The slab for `cap` elements is one that `Layout` describes. -/
def Fits (cap : Nat) : Prop :=
  O.nativeAbiMatchesCanonicalAbi = false → O.elemSize * cap ≤ 2 ^ 31 - O.elemAlign

variable {O} {buf : Buffer} {answer : Code} {e e' : End α} {cap : Nat}

/-! ## The slab -/

theorem usizeMul_exact {a b : Nat} (h : a * b < 2 ^ 32) : usizeMul O a b e = .ok (a * b, e) := by
  rw [usizeMul, if_pos h]
  rfl

theorem readPointer_native (h : O.nativeAbiMatchesCanonicalAbi = true) :
    readPointer O buf e = .ok ((buf.at O buf.length, none), e) := by
  rw [readPointer, if_pos h]
  rfl

theorem readPointer_exact (h : O.nativeAbiMatchesCanonicalAbi = false)
    (hexact : O.elemSize * buf.spare < 2 ^ 32) : readPointer O buf e = slab O (O.elemSize * buf.spare) e := by
  have hrun : readPointer O buf e = (usizeMul O O.elemSize buf.spare e >>= fun r => slab O r.1 r.2) := by
    rw [readPointer, if_neg (by simp [h])]
    rfl
  rw [hrun, usizeMul_exact hexact]
  rfl

theorem slab_run (size : Nat) : slab O size e =
    if 2 ^ 31 - O.elemAlign < size then
      .error "called `Result::unwrap()` on an `Err` value: LayoutError"
    else .ok (if size = 0 then (nullPtr, none) else (⟨.slab, 0⟩, some ⟨.slab, 0⟩), e) := by
  rw [slab]
  split
  · rfl
  · split <;> rfl

/-- The pointer that a read goes by, when its elements are taken. -/
def pointerOf (O : StreamOps α) (state : ReadState) : Pointer Block :=
  if O.nativeAbiMatchesCanonicalAbi then state.1.at O state.1.length else state.2.getD nullPtr

/-- The host gets the pointer that is read from later, which is not one of a `Vec`
unless that is the buffer. Nothing else changes. -/
theorem readPointer_still (buf : Buffer) (e : End α) :
    Ends (fun _ => True) (fun r => r.2 = e ∧ r.1.1 = pointerOf O (buf, r.1.2) ∧
      (r.1.2.getD nullPtr).block ≠ .vec buf.block) (readPointer O buf e) := by
  have hslab : ∀ size, Ends (fun _ => True) (fun r => r.2 = e ∧ r.1.1 = r.1.2.getD nullPtr ∧
      (r.1.2.getD nullPtr).block ≠ .vec buf.block) (slab O size e) := by
    intro size
    rw [slab_run]
    split
    · exact trivial
    · split <;> exact ⟨rfl, rfl, nofun⟩
  cases hnative : O.nativeAbiMatchesCanonicalAbi with
  | true =>
    rw [readPointer_native hnative]
    exact ⟨rfl, by rw [pointerOf, if_pos hnative], nofun⟩
  | false =>
    have hpointer : ∀ state : ReadState, pointerOf O state = state.2.getD nullPtr := fun state => by
      rw [pointerOf, if_neg (by simp [hnative])]
    simp only [hpointer]
    rw [readPointer, if_neg (by simp [hnative]), usizeMul]
    split
    · exact hslab _
    · split
      · exact trivial
      · exact hslab _

/-- The slab for the spare capacity can be made. -/
theorem Fits.readPointer (h : Fits O buf.spare) : ∃ r, readPointer O buf e = .ok (r, e) := by
  cases hnative : O.nativeAbiMatchesCanonicalAbi with
  | true => exact ⟨_, readPointer_native hnative⟩
  | false =>
    have hfits := h hnative
    have hexact : O.elemSize * buf.spare < 2 ^ 32 := by omega
    rw [readPointer_exact hnative hexact, slab_run, if_neg (by omega)]
    exact ⟨_, rfl⟩

theorem fits_of_readPointer {r : Pointer Block × Option (Pointer Block)}
    (hexact : O.nativeAbiMatchesCanonicalAbi = false → O.elemSize * buf.spare < 2 ^ 32)
    (h : readPointer O buf e = .ok (r, e')) : Fits O buf.spare := by
  intro hnative
  rw [readPointer_exact hnative (hexact hnative), slab_run] at h
  split at h
  · cases h
  · omega

/-- Memory for `cap` canonical elements is handed out, where the slab can be made. -/
theorem Fits.handed (h : Fits O cap) : handed O cap e = O.elemSize * cap := by
  rw [Stream.handed]
  cases hnative : O.nativeAbiMatchesCanonicalAbi with
  | true => rw [if_pos rfl, O.rustSize_eq hnative]
  | false =>
    have hexact : O.elemSize * cap < 2 ^ 32 := by
      have hfits := h hnative
      omega
    rw [if_neg (by simp), usizeMul_exact hexact]

/-! ## The start -/

theorem readStart_eq (buf : Buffer) (answer : Code) (e : End α) : readStart O buf answer e =
    (if e.done then pure (dropped, (buf, none)) else do
      let r ← readPointer O buf
      emit (.startRead (← readHandle) r.1 (min buf.spare maxLength))
      modify fun e => e.transfer O r.1 answer
      pure (answer, (buf, r.2)) : EndM α _) e := rfl

theorem readStart_done (buf : Buffer) (answer : Code) (h : e.done = true) :
    readStart O buf answer e = .ok ((dropped, (buf, none)), e) := by
  rw [readStart_eq, if_pos h]
  rfl

theorem readStart_open (h : e.done = false) :
    readStart O buf answer e = (readPointer O buf e >>= fun r => readHandle r.2 >>= fun r' =>
      .ok ((answer, (buf, r.1.2)), End.transfer O
        { r'.2 with log := r'.2.log ++ [.startRead r'.1 r.1.1 (min buf.spare maxLength)] } r.1.1 answer)) := by
  rw [readStart_eq, if_neg (by simp [h])]
  rfl

/-- A start that reaches the host. -/
theorem Fits.readStart (answer : Code) (h : Fits O buf.spare) (hdone : e.done = false)
    (hhandle : e.handle ≠ takenHandle) :
    ∃ r ptr, readStart O buf answer e = .ok (r, End.transfer O
      { e with log := e.log ++ [.startRead e.handle ptr (min buf.spare maxLength)] } ptr answer) := by
  obtain ⟨r, hslab⟩ := h.readPointer (e := e)
  refine ⟨(answer, (buf, r.2)), r.1, ?_⟩
  have hread : readHandle e = .ok (e.handle, e) := by rw [readHandle_run, if_neg hhandle]
  rw [readStart_open hdone, hslab]
  change (readHandle e >>= _) = _
  rw [hread]
  rfl

theorem readStart_open_ok {r : Code × ReadState} (hdone : e.done = false)
    (h : readStart O buf answer e = .ok (r, e')) :
    e.handle ≠ takenHandle ∧ ∃ r e₁, readPointer O buf e = .ok (r, e₁) := by
  rw [readStart_open hdone] at h
  cases hslab : readPointer O buf e with
  | error text => rw [hslab] at h; cases h
  | ok s =>
    obtain ⟨r₁, e₁⟩ := s
    refine ⟨fun htaken => ?_, r₁, e₁, rfl⟩
    have hsame : e₁.handle = e.handle := ((Quiet.readPointer buf).of_ok hslab).1
    rw [hslab] at h
    change (readHandle e₁ >>= _) = _ at h
    rw [readHandle_run, if_pos (hsame.trans htaken)] at h
    cases h

variable (O) in
/-- A read starts as it should where the stream is known to have ended, or its end
still has its handle and the spare capacity of the `Vec`, in canonical elements, is
no more than a `Layout` can describe. -/
theorem startsSafely_iff (buf : Buffer) (answer : Code) (e : End α) :
    StartsSafely O buf answer e ↔
      e.done = true ∨ (e.handle ≠ takenHandle ∧ (O.nativeAbiMatchesCanonicalAbi = true ∨
        O.elemSize * buf.spare ≤ 2 ^ 31 - O.elemAlign)) := by
  constructor
  · intro hsafe
    cases hdone : e.done with
    | true => exact .inl rfl
    | false =>
      obtain ⟨r, e', steps, hrun, -, -⟩ := hsafe.returns
      -- a read that starts has made its slab
      obtain ⟨hhandle, r₁, e₁, hslab⟩ := readStart_open_ok hdone hrun
      have hfits := fits_of_readPointer (hsafe.exact hdone) hslab
      refine .inr ⟨hhandle, ?_⟩
      cases hnative : O.nativeAbiMatchesCanonicalAbi with
      | true => exact .inl rfl
      | false => exact .inr (hfits hnative)
  · rintro (hdone | ⟨hhandle, hfits⟩)
    · exact ⟨fun h => absurd (hdone.symm.trans h) nofun,
        _, _, [], readStart_done _ _ hdone, (List.append_nil _).symm, nofun⟩
    · have hfits' : Fits O buf.spare := by
        intro hnative
        rcases hfits with h | h
        · rw [hnative] at h
          cases h
        · exact h
      refine ⟨fun _ hnative => ?_, ?_⟩
      · have hle := hfits' hnative
        omega
      · cases hdone : e.done with
        | true => exact ⟨_, _, [], readStart_done _ _ hdone, (List.append_nil _).symm, nofun⟩
        | false =>
          obtain ⟨r, ptr, hrun⟩ := hfits'.readStart answer hdone hhandle
          refine ⟨_, _, _, hrun, (End.transfer_frame _ _ _).2.2, fun handle ptr' len hmem => ?_⟩
          cases List.mem_singleton.mp hmem
          rw [hfits'.handed, Nat.mul_comm]
          exact Nat.mul_le_mul_left _ (Nat.min_le_left _ _)

/-- A type without content, such as a variant of a single case, which is one byte
long in the canonical ABI. -/
def onlyCase : StreamOps Unit where
  elemSize := 1
  elemAlign := 1
  nativeAbiMatchesCanonicalAbi := false
  containsLists := false
  lift _ := ()
  rustSize := 0
  load _ := ()
  store _ := []
  load_store _ := rfl
  length_store _ := rfl
  rustSize_eq h := by cases h
  source _ := [0]
  length_source _ := rfl
  overflowChecks := true

/-- `Vec::with_capacity(1)`, with which `next` reads, has all the room there is where
an element takes none. -/
theorem sizeless_read_panics : ¬ StartsSafely onlyCase ⟨0, 0, 2 ^ 32 - 1⟩ 0 ⟨7, false, fun _ _ => 0, none, 0, []⟩ := by
  intro hsafe
  obtain ⟨r, e', steps, hrun, -, -⟩ := hsafe.returns
  have hpanic : readStart onlyCase ⟨0, 0, 2 ^ 32 - 1⟩ 0 ⟨7, false, fun _ _ => 0, none, 0, []⟩ =
      .error "called `Result::unwrap()` on an `Err` value: LayoutError" := rfl
  rw [hpanic] at hrun
  cases hrun

end Stream

end Rt

end WitBindgen
