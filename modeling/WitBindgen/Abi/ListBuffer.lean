import WitBindgen.Library.Reading
import WitBindgen.Machine.RoundTrip

/-!
# The buffers of lists and maps

`ListLower` and `MapLower` allocate a buffer for all elements and then store one element
after the other. How many bytes they ask for is computed in the 32-bit integers of the
guest, each backend in its own way: `usize` in Rust, `uint32` in Go, `int` and `nuint`
in C#. Nothing bounds the product: what a list takes in the guest can be far less than
its canonical size, or nothing at all.
-/

namespace WitBindgen.ListBuffer

/-! ## Buffers -/

/-- The layout of an element, or of an entry of a map: sizes are padded to the alignment. -/
structure EntryLayout where
  size : Nat
  align : Nat
  align_mem : align ∈ [1, 2, 4, 8]
  align_dvd : align ∣ size

/-- The layout that an instruction lowers its elements with. -/
def entryLayout (T : Target) : Instruction → Option (Nat × Nat)
  | .listLower element _ => some (T.size element, T.align element)
  | .mapLower key value _ => some (T.entrySize key value, T.entryAlign key value)
  | _ => none

/-- Whether the callee takes the buffer over. -/
def hasRealloc : Instruction → Bool
  | .listLower _ realloc | .mapLower _ _ realloc => realloc.isSome
  | _ => false

/-- What the guest's program and its runtime do: whether arithmetic is checked (a setting of
the Rust compiler), and where they find room. -/
structure Runtime where
  overflowChecks : Bool
  alloc : Nat → Nat → Option Nat
  stack : Nat → Option Nat
  alloc_within : ∀ {size align a}, alloc size align = some a → a < 2 ^ 32 ∧ a + size ≤ 2 ^ 32
  stack_within : ∀ {size a}, stack size = some a → a < 2 ^ 32 ∧ a + size ≤ 2 ^ 32

/-- A buffer, of which `spare` bytes are there to align its start, and the places that the
elements are stored in. -/
structure Filled where
  start : Nat
  bytes : Nat
  spare : Nat
  places : List Place

def Filled.Inside (b : Filled) : Prop :=
  ∀ x ∈ b.places, b.start ≤ x.start ∧ x.start + x.size ≤ b.start + b.bytes

/-- The code fails before any store, or its buffer has `n` bytes for the elements and they are
stored inside it. -/
def Sound (n : Nat) : Option Filled → Prop
  | none => True
  | some b => b.bytes = n + b.spare ∧ b.Inside

/-- The loop: element `i` goes to `address + i * size`, in 32 bits. -/
def elementPlaces (address size len : Nat) : List Place :=
  (List.range len).map fun i => ⟨(address + i * size) % 2 ^ 32, size⟩

/-! ## Rust -/

/-- Multiplication of `usize`. -/
def usizeMul (overflowChecks : Bool) (a b : Nat) : Option Nat :=
  if a * b < 2 ^ 32 then some (a * b)
  else if overflowChecks then none
  else some (a * b % 2 ^ 32)

/-- `Layout::from_size_align(size, align).unwrap()`: the size, rounded up to the alignment, has to
fit in `isize`. -/
def layoutFromSizeAlign (size align : Nat) : Option Nat :=
  if size ≤ 2 ^ 31 - align then some size else none

/-- `Cleanup::new`. -/
def cleanupNew (R : Runtime) (size align : Nat) : Option Nat :=
  if size = 0 then some 0 else R.alloc size align

def rustLower (R : Runtime) (size align len : Nat) : Option Filled := do
  let n ← usizeMul R.overflowChecks len size
  let layout ← layoutFromSizeAlign n align
  let result ← cleanupNew R layout align
  return ⟨result, layout, 0, elementPlaces result size len⟩

/-! ## Go -/

/-- `witRuntime.Allocate(pinner, uintptr(length * size), align)` with `length := uint32(len(slice))`. -/
def goLower (R : Runtime) (size align len : Nat) : Option Filled := do
  let length := len % 2 ^ 32
  let n := length * size % 2 ^ 32
  let result ← R.alloc n align
  return ⟨result, n, 0, elementPlaces result size len⟩

/-! ## C# -/

/-- What an `int` holds after arithmetic that wraps. -/
def toInt32 (x : Nat) : Int := ((x : Int) + 2 ^ 31) % 2 ^ 32 - 2 ^ 31

/-- `dotnet_aligned_array`: the number of elements that the bytes take, each of as many bytes as
the alignment. -/
def dotnetAlignedArray (arraySize requiredAlignment : Nat) : Nat :=
  (arraySize + requiredAlignment - 1) / requiredAlignment

/-- One element more where the start may not be aligned. -/
def spareElements (align : Nat) : Nat := if align > 1 then 1 else 0

/-- `stackalloc elementType[count]`. A negative count is no size of an array. -/
def stackalloc (R : Runtime) (align : Nat) (count : Int) : Option (Nat × Nat) :=
  if count < 0 then none
  else (R.stack (count.toNat * align)).map fun a => (a, count.toNat * align)

/-- `MemoryHelper.AlignStackPtr`. -/
def alignStackPtr (address align : Nat) : Nat := (address + align - 1) / align * align

/-- `AlignedAlloc` of `size * (nuint)count` bytes. -/
def csharpHeap (R : Runtime) (size align len : Nat) : Option Filled := do
  let bufferSize := size * len % 2 ^ 32
  let address ← R.alloc bufferSize align
  return ⟨address, bufferSize, 0, elementPlaces address size len⟩

def csharpStack (R : Runtime) (size align len : Nat) : Option Filled := do
  let (start, bytes) ← stackalloc R align (toInt32 (dotnetAlignedArray size align * len + spareElements align))
  return ⟨start, bytes, spareElements align * align, elementPlaces (alignStackPtr start align) size len⟩

/-- Small buffers live on the stack unless the callee takes them over. -/
def csharpLower (R : Runtime) (realloc : Bool) (size align len : Nat) : Option Filled :=
  if realloc then csharpHeap R size align len
  else if toInt32 (size * len) < 1024 then csharpStack R size align len
  else csharpHeap R size align len

/-! ## Where the elements fit -/

theorem elementPlaces_inside {start bytes spare address size len : Nat} (hlt : address < 2 ^ 32)
    (hstart : start ≤ address) (hend : address + len * size ≤ start + bytes) (hin : start + bytes ≤ 2 ^ 32) :
    Filled.Inside ⟨start, bytes, spare, elementPlaces address size len⟩ := by
  intro x hx
  obtain ⟨i, hi, rfl⟩ := List.mem_map.mp hx
  have hnext : i * size + size ≤ len * size := by
    rw [← Nat.succ_mul]
    exact Nat.mul_le_mul_right _ (List.mem_range.mp hi)
  have hmod : (address + i * size) % 2 ^ 32 = address + i * size := by
    refine Nat.mod_eq_of_lt ?_
    rcases Nat.eq_zero_or_pos size with rfl | hpos
    · exact hlt
    · omega
  dsimp only
  rw [hmod]
  omega

section
variable {R : Runtime} {size align len : Nat}

/-- A buffer of as many bytes as the product leaves in 32 bits is right exactly if it leaves all. -/
theorem sound_wrapped {a n : Nat} (hlt : a < 2 ^ 32) (hin : a + n % 2 ^ 32 ≤ 2 ^ 32) (hn : n = len * size) :
    Sound (len * size) (some ⟨a, n % 2 ^ 32, 0, elementPlaces a size len⟩) ↔ len * size < 2 ^ 32 := by
  subst hn
  constructor
  · rintro ⟨hbytes, -⟩
    rw [Nat.add_zero] at hbytes
    exact hbytes ▸ Nat.mod_lt _ (Nat.two_pow_pos 32)
  · intro hfits
    rw [Nat.mod_eq_of_lt hfits] at hin ⊢
    exact ⟨rfl, elementPlaces_inside hlt le_rfl le_rfl hin⟩

theorem goLower_sound_iff : Sound (len * size) (goLower R size align len) ↔
    len * size < 2 ^ 32 ∨ R.alloc (len * size % 2 ^ 32) align = none := by
  have hmul : len % 2 ^ 32 * size % 2 ^ 32 = len * size % 2 ^ 32 := Nat.mod_mul_mod ..
  unfold goLower
  dsimp only
  rw [hmul]
  cases ha : R.alloc (len * size % 2 ^ 32) align with
  | none => exact iff_of_true trivial (Or.inr rfl)
  | some a =>
    obtain ⟨hlt, hin⟩ := R.alloc_within ha
    exact (sound_wrapped hlt hin rfl).trans (by simp)

theorem csharpHeap_sound_iff : Sound (len * size) (csharpHeap R size align len) ↔
    len * size < 2 ^ 32 ∨ R.alloc (len * size % 2 ^ 32) align = none := by
  unfold csharpHeap
  dsimp only
  rw [Nat.mul_comm size len]
  cases ha : R.alloc (len * size % 2 ^ 32) align with
  | none => exact iff_of_true trivial (Or.inr rfl)
  | some a =>
    obtain ⟨hlt, hin⟩ := R.alloc_within ha
    exact (sound_wrapped hlt hin rfl).trans (by simp)

/-- What makes Rust code fail on a product that does not fit. -/
def RustRefuses (R : Runtime) (size align len : Nat) : Prop :=
  R.overflowChecks = true ∨ 2 ^ 31 - align < len * size % 2 ^ 32 ∨
    len * size % 2 ^ 32 ≠ 0 ∧ R.alloc (len * size % 2 ^ 32) align = none

theorem usizeMul_eq {checks : Bool} {a b : Nat} (h : a * b < 2 ^ 32 ∨ checks = false) :
    usizeMul checks a b = some (a * b % 2 ^ 32) := by
  unfold usizeMul
  split
  · next hfits => rw [Nat.mod_eq_of_lt hfits]
  · next hwide =>
    rw [h.resolve_left hwide]
    rfl

theorem cleanupNew_within {n a : Nat} (h : cleanupNew R n align = some a) : a < 2 ^ 32 ∧ a + n ≤ 2 ^ 32 := by
  unfold cleanupNew at h
  split at h
  · next hn =>
    obtain rfl := Option.some.inj h
    rw [hn]
    exact ⟨Nat.two_pow_pos 32, Nat.zero_le _⟩
  · exact R.alloc_within h

theorem cleanupNew_eq_none {n : Nat} : cleanupNew R n align = none ↔ n ≠ 0 ∧ R.alloc n align = none := by
  unfold cleanupNew
  split
  · next hn => simp [hn]
  · next hn => simp [hn]

theorem rustLower_sound_iff :
    Sound (len * size) (rustLower R size align len) ↔ len * size < 2 ^ 32 ∨ RustRefuses R size align len := by
  unfold rustLower RustRefuses
  by_cases hmul : len * size < 2 ^ 32 ∨ R.overflowChecks = false
  · rw [usizeMul_eq hmul]
    by_cases hlayout : len * size % 2 ^ 32 ≤ 2 ^ 31 - align
    · have hlayout' : layoutFromSizeAlign (len * size % 2 ^ 32) align = some (len * size % 2 ^ 32) := if_pos hlayout
      simp only [Option.bind_eq_bind, Option.bind_some, hlayout']
      cases ha : cleanupNew R (len * size % 2 ^ 32) align with
      | none => exact iff_of_true trivial (Or.inr (Or.inr (Or.inr (cleanupNew_eq_none.mp ha))))
      | some a =>
        obtain ⟨hlt, hin⟩ := cleanupNew_within ha
        have hroom : ¬(len * size % 2 ^ 32 ≠ 0 ∧ R.alloc (len * size % 2 ^ 32) align = none) := by
          rw [← cleanupNew_eq_none, ha]
          exact nofun
        refine (sound_wrapped hlt hin rfl).trans ?_
        constructor
        · exact Or.inl
        · rintro (hfits | hchecks | hbig | hnone)
          · exact hfits
          · exact hmul.resolve_right (ne_false_of_eq_true hchecks)
          · exact absurd hlayout (Nat.not_le.mpr hbig)
          · exact absurd hnone hroom
    · have hlayout' : layoutFromSizeAlign (len * size % 2 ^ 32) align = none := if_neg hlayout
      simp only [Option.bind_eq_bind, Option.bind_some, hlayout']
      exact iff_of_true trivial (Or.inr (Or.inr (Or.inl (Nat.not_le.mp hlayout))))
  · have hchecks : R.overflowChecks = true := by
      by_contra hnot
      exact hmul (Or.inr (Bool.eq_false_iff.mpr hnot))
    have hmul' : usizeMul R.overflowChecks len size = none := by
      rw [hchecks]
      exact if_neg fun hfits => hmul (Or.inl hfits)
    rw [hmul']
    exact iff_of_true trivial (Or.inr (Or.inl hchecks))

/-! ### The stack of C# -/

/-- How many elements of the alignment's size are asked for on the stack. -/
def stackElements (L : EntryLayout) (len : Nat) : Nat := dotnetAlignedArray L.size L.align * len + spareElements L.align

variable {L : EntryLayout}

theorem dotnetAlignedArray_mul (L : EntryLayout) : dotnetAlignedArray L.size L.align * L.align = L.size := by
  obtain ⟨k, hk⟩ := L.align_dvd
  have hmem := L.align_mem
  simp only [List.mem_cons, List.not_mem_nil, or_false] at hmem
  unfold dotnetAlignedArray
  rcases hmem with h | h | h | h <;>
    · rw [hk, h]
      omega

theorem alignStackPtr_spec (L : EntryLayout) (a : Nat) :
    a ≤ alignStackPtr a L.align ∧ alignStackPtr a L.align ≤ a + spareElements L.align * L.align ∧
      (spareElements L.align = 0 → alignStackPtr a L.align = a) ∧
      (spareElements L.align ≠ 0 → alignStackPtr a L.align < a + spareElements L.align * L.align) := by
  have hmem := L.align_mem
  simp only [List.mem_cons, List.not_mem_nil, or_false] at hmem
  unfold alignStackPtr spareElements
  rcases hmem with h | h | h | h <;>
    · rw [h]
      simp
      try omega

theorem stackElements_mul (L : EntryLayout) (len : Nat) :
    stackElements L len * L.align = len * L.size + spareElements L.align * L.align := by
  rw [stackElements, Nat.add_mul, Nat.mul_right_comm, dotnetAlignedArray_mul, Nat.mul_comm]

theorem csharpStack_sound_iff : Sound (len * L.size) (csharpStack R L.size L.align len) ↔
    stackElements L len < 2 ^ 32 ∨ toInt32 (stackElements L len) < 0 ∨
      R.stack ((toInt32 (stackElements L len)).toNat * L.align) = none := by
  have hcode : csharpStack R L.size L.align len =
      (stackalloc R L.align (toInt32 (stackElements L len))).map fun x =>
        ⟨x.1, x.2, spareElements L.align * L.align, elementPlaces (alignStackPtr x.1 L.align) L.size len⟩ := by
    unfold csharpStack stackElements
    cases stackalloc R L.align (toInt32 (dotnetAlignedArray L.size L.align * len + spareElements L.align)) <;> rfl
  rw [hcode, stackalloc]
  have hpos : 0 < L.align := Nat.pos_of_ne_zero fun h => by
    have hmem := L.align_mem
    simp [h] at hmem
  by_cases hneg : toInt32 (stackElements L len) < 0
  · rw [if_pos hneg]
    exact iff_of_true trivial (Or.inr (Or.inl hneg))
  · rw [if_neg hneg]
    cases ha : R.stack ((toInt32 (stackElements L len)).toNat * L.align) with
    | none => exact iff_of_true trivial (Or.inr (Or.inr rfl))
    | some a =>
      obtain ⟨hlt, hin⟩ := R.stack_within ha
      have htotal := stackElements_mul L len
      obtain ⟨hlow, hhigh, hsame, hstrict⟩ := alignStackPtr_spec L a
      simp only [Option.map_some, hneg, reduceCtorEq, or_false]
      constructor
      · rintro ⟨hbytes, -⟩
        dsimp only at hbytes
        rw [← htotal] at hbytes
        have hcount := Nat.eq_of_mul_eq_mul_right hpos hbytes
        unfold toInt32 at hcount hneg
        omega
      · intro hfits
        have hcount : (toInt32 (stackElements L len)).toNat = stackElements L len := by
          unfold toInt32 at hneg ⊢
          omega
        rw [hcount, htotal] at hin ⊢
        refine ⟨rfl, elementPlaces_inside ?_ hlow ?_ hin⟩
        · by_cases hspare : spareElements L.align = 0
          · rw [hsame hspare]
            exact hlt
          · have := hstrict hspare
            omega
        · omega

theorem csharpLower_sound_iff {realloc : Bool} : Sound (len * L.size) (csharpLower R realloc L.size L.align len) ↔
    if realloc = false ∧ toInt32 (L.size * len) < 1024 then
      stackElements L len < 2 ^ 32 ∨ toInt32 (stackElements L len) < 0 ∨
        R.stack ((toInt32 (stackElements L len)).toNat * L.align) = none
    else len * L.size < 2 ^ 32 ∨ R.alloc (len * L.size % 2 ^ 32) L.align = none := by
  unfold csharpLower
  cases realloc with
  | true => exact csharpHeap_sound_iff
  | false =>
    by_cases hsmall : toInt32 (L.size * len) < 1024
    · simp only [Bool.false_eq_true, if_false, if_pos hsmall, true_and]
      exact csharpStack_sound_iff
    · simp only [Bool.false_eq_true, if_false, if_neg hsmall, true_and]
      exact csharpHeap_sound_iff

/-! ## The three backends -/

def rustEmit (T : Target) (R : Runtime) (i : Instruction) (len : Nat) : Option Filled := do
  let (size, align) ← entryLayout T i
  rustLower R size align len

def goEmit (T : Target) (R : Runtime) (i : Instruction) (len : Nat) : Option Filled := do
  let (size, align) ← entryLayout T i
  goLower R size align len

def csharpEmit (T : Target) (R : Runtime) (i : Instruction) (len : Nat) : Option Filled := do
  let (size, align) ← entryLayout T i
  csharpLower R (hasRealloc i) size align len

/-- C# code that takes its buffer from the stack. -/
def OnStack (i : Instruction) (L : EntryLayout) (len : Nat) : Prop :=
  hasRealloc i = false ∧ toInt32 (L.size * len) < 1024

instance (i : Instruction) (L : EntryLayout) (len : Nat) : Decidable (OnStack i L len) := by
  unfold OnStack; infer_instance

/-- Each backend's code is sound exactly if the product fits in 32 bits, or if what is left of it
makes the code fail: in Rust by an overflow check, by the limit of `Layout` or for lack of memory,
in Go for lack of memory, in C# likewise or by a negative count. -/
theorem lower_sound_iff {T : Target} {i : Instruction} (L : EntryLayout)
    (hL : entryLayout T i = some (L.size, L.align)) (R : Runtime) (len : Nat) :
    (Sound (len * L.size) (rustEmit T R i len) ↔ len * L.size < 2 ^ 32 ∨ RustRefuses R L.size L.align len) ∧
    (Sound (len * L.size) (goEmit T R i len) ↔
      len * L.size < 2 ^ 32 ∨ R.alloc (len * L.size % 2 ^ 32) L.align = none) ∧
    (Sound (len * L.size) (csharpEmit T R i len) ↔
      if OnStack i L len then
        stackElements L len < 2 ^ 32 ∨ toInt32 (stackElements L len) < 0 ∨
          R.stack ((toInt32 (stackElements L len)).toNat * L.align) = none
      else len * L.size < 2 ^ 32 ∨ R.alloc (len * L.size % 2 ^ 32) L.align = none) := by
  unfold rustEmit goEmit csharpEmit OnStack
  rw [hL]
  exact ⟨rustLower_sound_iff, goLower_sound_iff, csharpLower_sound_iff⟩

end

/-! ### Lists of nothing -/

/-- Memory from 4096 on. -/
def release : Runtime where
  overflowChecks := false
  alloc size _ := if size ≤ 2 ^ 31 then some 4096 else none
  stack size := if size ≤ 2 ^ 16 then some 4096 else none
  alloc_within := by
    intro size align a h
    split at h
    · obtain rfl := Option.some.inj h
      omega
    · exact nomatch h
  stack_within := by
    intro size a h
    split at h
    · obtain rfl := Option.some.inj h
      omega
    · exact nomatch h

/-- Two values of a variant with one case, which take no memory in Rust. -/
def units : Ty :=
  let unit : Ty := .variant 0 "v" [("a", none)]
  .tuple 1 [unit, unit]

def unitsLayout : EntryLayout := ⟨2, 1, by decide, by decide⟩

theorem entryLayout_units (realloc : Option String) :
    entryLayout bumpMachine.toTarget (.listLower units realloc) = some (unitsLayout.size, unitsLayout.align) := by
  have hinfo : units.info = ⟨⟨2, 0⟩, .bytes 1⟩ := by
    simp only [units, Ty.info, List.map_cons, List.map_nil]
    decide
  have hsize : bumpMachine.toTarget.size units = units.info.size.eval 4 := rfl
  have halign : bumpMachine.toTarget.align units = units.info.align.eval 4 := rfl
  rw [entryLayout, hsize, halign, hinfo]
  rfl

theorem units_sound_iff : (Sound (7 * 2) (rustEmit bumpMachine.toTarget release (.listLower units none) 7) ↔
    7 * 2 < 2 ^ 32 ∨ RustRefuses release 2 1 7) :=
  (lower_sound_iff unitsLayout (entryLayout_units none) release 7).1

/-- A `Vec` of 2 ^ 31 such pairs: the product is zero in 32 bits. -/
theorem units_overrun : ¬Sound (2 ^ 31 * 2) (rustEmit bumpMachine.toTarget release (.listLower units none) (2 ^ 31)) := by
  have hcode : rustEmit bumpMachine.toTarget release (.listLower units none) (2 ^ 31) =
      rustLower release 2 1 (2 ^ 31) := by
    rw [rustEmit, entryLayout_units]
    rfl
  rw [hcode, rustLower_sound_iff]
  unfold RustRefuses
  simp [release]

end WitBindgen.ListBuffer
