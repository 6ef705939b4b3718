import WitBindgen.Wit.Canonical

/-!
# Sets of flags in core words

The Rust, C and C++ backends pass a set of flags as 32-bit words. `FlagsLower` takes the words
out of an unsigned number; `FlagsLift` gets them back as signed core values, converts each to
the number's type and puts it in its place. The set of the flags below `n` is a `BitVec n`
here, with a bit for each flag.
-/

namespace WitBindgen.FlagWords

/-! ## Words with a sign -/

section
variable {w n : Nat}

/-- The word from bit `32 * i` on. -/
def word (bits : BitVec w) (i : Nat) : BitVec 32 := (bits >>> (32 * i)).setWidth 32

theorem getLsbD_word (bits : BitVec w) (i j : Nat) :
    (word bits i).getLsbD j = (decide (j < 32) && bits.getLsbD (32 * i + j)) := by
  rw [word, BitVec.getLsbD_setWidth, BitVec.getLsbD_ushiftRight]

/-- A signed word, converted to `w` bits and shifted into its place. -/
def place (w : Nat) (op : BitVec 32) (i : Nat) : BitVec w := op.signExtend w <<< (32 * i)

/-- Besides the bits of the word, all bits above are set if its top bit is. -/
theorem getLsbD_place {bits : BitVec w} {i j : Nat} (hj : j < w) :
    (place w (word bits i) i).getLsbD j = true ↔ (32 * i ≤ j ∧ j < 32 * (i + 1) ∧ bits.getLsbD j = true) ∨
      32 * (i + 1) ≤ j ∧ bits.getLsbD (32 * i + 31) = true := by
  rw [place, BitVec.getLsbD_shiftLeft, decide_eq_true hj, Bool.true_and, BitVec.getLsbD_signExtend,
    getLsbD_word, BitVec.msb_eq_getLsbD_last, getLsbD_word]
  rcases Nat.lt_or_ge j (32 * i) with hlow | hge
  · rw [decide_eq_true hlow]
    refine iff_of_false Bool.false_ne_true ?_
    rintro (⟨h, -⟩ | ⟨h, -⟩) <;> omega
  · rw [decide_eq_false (Nat.not_lt.mpr hge), decide_eq_true (by omega : j - 32 * i < w),
      (by omega : 32 * i + (j - 32 * i) = j)]
    rcases Nat.lt_or_ge j (32 * (i + 1)) with hin | hout
    · rw [if_pos (by omega), decide_eq_true (by omega : j - 32 * i < 32)]
      have hnot : ¬32 * (i + 1) ≤ j := by omega
      simp [hge, hin, hnot]
    · rw [if_neg (by omega)]
      have hnot : ¬j < 32 * (i + 1) := by omega
      simp [hge, hout, hnot]

/-- `r` has the bits of `s`, and those above a word with its top bit set. -/
def Rebuilt (s : BitVec n) (r : BitVec w) : Prop :=
  ∀ j < n, r.getLsbD j = true ↔
    s.getLsbD j = true ∨ ∃ k, 32 * (k + 1) ≤ j ∧ s.getLsbD (32 * k + 31) = true

/-- No flag at the top of a word is set unless all flags of the words above are. -/
def SignsHarmless (s : BitVec n) : Prop :=
  ∀ k, s.getLsbD (32 * k + 31) = true → ∀ j < n, 32 * (k + 1) ≤ j → s.getLsbD j = true

theorem Rebuilt.setWidth_eq_iff {s : BitVec n} {r : BitVec w} (h : Rebuilt s r) :
    r.setWidth n = s ↔ SignsHarmless s := by
  have hbits : r.setWidth n = s ↔ ∀ j < n, r.getLsbD j = s.getLsbD j := by
    constructor
    · intro heq j hj
      rw [← heq, BitVec.getLsbD_setWidth, decide_eq_true hj, Bool.true_and]
    · intro heq
      refine BitVec.eq_of_getLsbD_eq fun j hj => ?_
      rw [BitVec.getLsbD_setWidth, decide_eq_true hj, Bool.true_and, heq j hj]
  rw [hbits]
  constructor
  · intro heq k hk j hj hle
    rw [← heq j hj]
    exact (h j hj).mpr (.inr ⟨k, hle, hk⟩)
  · intro hsigns j hj
    have hiff : s.getLsbD j = true ↔ r.getLsbD j = true := by
      rw [h j hj]
      exact ⟨.inl, fun hor => hor.elim id fun ⟨k, hle, hk⟩ => hsigns k hk j hj hle⟩
    exact Bool.eq_iff_iff.mpr hiff.symm

/-- A number whose bits are put together from its words. -/
theorem rebuilt_of_words {s : BitVec n} (hn : n ≤ w) {count : Nat} (hcount : n ≤ 32 * count) {r : BitVec w}
    (hr : ∀ j, r.getLsbD j = true ↔
      ∃ i < count, (place w (word (s.setWidth w) i) i).getLsbD j = true) : Rebuilt s r := by
  intro j hj
  have hbit : ∀ i, (s.setWidth w).getLsbD i = s.getLsbD i := fun i => by
    rw [BitVec.getLsbD_setWidth]
    by_cases hi : i < w
    · rw [decide_eq_true hi, Bool.true_and]
    · rw [decide_eq_false hi, Bool.false_and, BitVec.getLsbD_of_ge s i (by omega)]
  simp only [hr, getLsbD_place (show j < w by omega), hbit]
  constructor
  · rintro ⟨i, -, ⟨-, -, hs⟩ | ⟨hle, hs⟩⟩
    · exact .inl hs
    · exact .inr ⟨i, hle, hs⟩
  · rintro (hs | ⟨k, hle, hs⟩)
    · exact ⟨j / 32, by omega, .inl ⟨by omega, by omega, hs⟩⟩
    · have hk : 32 * k + 31 < n := by
        by_contra hge
        rw [BitVec.getLsbD_of_ge s _ (by omega)] at hs
        cases hs
      exact ⟨k, by omega, .inr ⟨hle, hs⟩⟩

/-- A number of at most 32 bits is one word. -/
theorem rebuilt_of_narrow {s : BitVec n} (hn : n ≤ 32) {r : BitVec w}
    (hr : ∀ j < n, r.getLsbD j = s.getLsbD j) : Rebuilt s r := by
  intro j hj
  rw [hr j hj]
  exact ⟨.inl, fun hor => hor.elim id fun ⟨k, hle, _⟩ => by omega⟩

end

/-! ## Rust -/

namespace Rust

inductive RustFlagsRepr where
  | u8 | u16 | u32 | u64 | u128
  deriving DecidableEq

def RustFlagsRepr.bits : RustFlagsRepr → Nat
  | u8 => 8
  | u16 => 16
  | u32 => 32
  | u64 => 64
  | u128 => 128

/-- `RustFlagsRepr::new`; `none` is the panic on an unsupported number of flags. -/
def RustFlagsRepr.new : FlagsRepr → Option RustFlagsRepr
  | .u8 => some u8
  | .u16 => some u16
  | .u32 1 => some u32
  | .u32 2 => some u64
  | .u32 3 | .u32 4 => some u128
  | .u32 _ => none

/-- `(flags.bits() >> i * 32) as i32`, for each word. -/
def flagsLower {w : Nat} (count : Nat) (flags : BitVec w) : List (BitVec 32) :=
  (List.range count).map fun i => (flags >>> (i * 32)).setWidth 32

/-- `T::empty()`, and `| T::from_bits_retain(((op as repr) << i * 32) as _)` for each word. The
conversion of the `i32` keeps its sign. -/
def flagsLift (repr : RustFlagsRepr) (operands : List (BitVec 32)) : BitVec repr.bits :=
  operands.zipIdx.foldl (fun result (op, i) => result ||| op.signExtend repr.bits <<< (i * 32)) 0

/-- A set of `n` flags through `FlagsLower` and `FlagsLift`, in the type the flags have. -/
def roundTrip {n : Nat} (s : BitVec n) : Option (BitVec n) := do
  let repr ← RustFlagsRepr.new (flagsReprOf n)
  let words := flagsLower (flagsReprOf n).count (s.setWidth repr.bits)
  some ((flagsLift repr words).setWidth n)

end Rust

/-! ## C -/

/-- The `Int` of a flags type. -/
inductive Int where
  | u8 | u16 | u32 | u64
  deriving DecidableEq

/-- The width of `int_repr`. -/
def Int.bits : Int → Nat
  | u8 => 8
  | u16 => 16
  | u32 => 32
  | u64 => 64

/-- `flags_repr` -/
def flagsRepr (flags : Nat) : Option Int :=
  match flagsReprOf flags with
  | .u8 => some .u8
  | .u16 => some .u16
  | .u32 1 => some .u32
  | .u32 2 => some .u64
  | .u32 _ => none

/-- The operand itself, or its lower and its upper word. All are passed as `int32_t`. -/
def intLower : (repr : Int) → BitVec repr.bits → List (BitVec 32)
  | .u64, flags =>
    [(flags &&& 0xffffffff).setWidth 32, ((flags >>> 32) &&& 0xffffffff).setWidth 32]
  | .u8, flags | .u16, flags | .u32, flags => [flags.setWidth 32]

/-- The operand itself, or the upper word shifted and or-ed with the lower one. Converting an
`int32_t` keeps its sign. -/
def intLift : (repr : Int) → List (BitVec 32) → Option (BitVec repr.bits)
  | .u64, [op0, op1] => some (op0.signExtend 64 ||| op1.signExtend 64 <<< 32)
  | .u8, [op] => some (op.signExtend 8)
  | .u16, [op] => some (op.signExtend 16)
  | .u32, [op] => some (op.signExtend 32)
  | _, _ => none

namespace C

/-- `op`, or `flags & 0xffffffff` and `(flags >> 32) & 0xffffffff`. -/
def flagsLower (repr : Int) (flags : BitVec repr.bits) : List (BitVec 32) := intLower repr flags

/-- `op`, or `((T) (op0)) | (((T) (op1)) << 32)`, with `uint64_t` for `T`. -/
def flagsLift (repr : Int) (operands : List (BitVec 32)) : Option (BitVec repr.bits) :=
  intLift repr operands

def roundTrip {n : Nat} (s : BitVec n) : Option (BitVec n) := do
  let repr ← flagsRepr n
  let flags ← flagsLift repr (flagsLower repr (s.setWidth repr.bits))
  some (flags.setWidth n)

end C

/-! ## C++ -/

namespace Cpp

/-- `((int32_t)op)`, or `(int32_t)(((uint64_t)flags) & 0xffffffff)` and
`(int32_t)((((uint64_t)flags) >> 32) & 0xffffffff)`. -/
def flagsLower (repr : Int) (flags : BitVec repr.bits) : List (BitVec 32) := intLower repr flags

/-- `((T)op)`, or `((T)((op0) | (((uint64_t)(op1)) << 32)))`, where `|` converts the first operand
to the type of the second. -/
def flagsLift (repr : Int) (operands : List (BitVec 32)) : Option (BitVec repr.bits) :=
  intLift repr operands

def roundTrip {n : Nat} (s : BitVec n) : Option (BitVec n) := do
  let repr ← flagsRepr n
  let flags ← flagsLift repr (flagsLower repr (s.setWidth repr.bits))
  some (flags.setWidth n)

end Cpp

/-! ## The bits of the result -/

section
variable {n : Nat}

theorem getLsbD_foldl_or {α : Type} {w : Nat} (f : α → BitVec w) (xs : List α) (r : BitVec w) (j : Nat) :
    (xs.foldl (fun r x => r ||| f x) r).getLsbD j = true ↔
      r.getLsbD j = true ∨ ∃ x ∈ xs, (f x).getLsbD j = true := by
  induction xs generalizing r with
  | nil => simp
  | cons x xs ih =>
    rw [List.foldl_cons, ih, BitVec.getLsbD_or, Bool.or_eq_true]
    simp [or_assoc]

theorem getLsbD_flagsLift (repr : Rust.RustFlagsRepr) (count : Nat) (bits : BitVec repr.bits) (j : Nat) :
    (Rust.flagsLift repr (Rust.flagsLower count bits)).getLsbD j = true ↔
      ∃ i < count, (place repr.bits (word bits i) i).getLsbD j = true := by
  rw [Rust.flagsLift, getLsbD_foldl_or (fun x : BitVec 32 × Nat => x.1.signExtend _ <<< (x.2 * 32)),
    Rust.flagsLower]
  have hzero : (0 : BitVec repr.bits).getLsbD j ≠ true := by simp
  rw [or_iff_right hzero]
  constructor
  · rintro ⟨⟨op, i⟩, hmem, hbit⟩
    rw [List.mk_mem_zipIdx_iff_getElem?, List.getElem?_map, Option.map_eq_some_iff] at hmem
    obtain ⟨k, hk, rfl⟩ := hmem
    obtain ⟨hi, rfl⟩ := List.getElem?_eq_some_iff.mp hk
    rw [List.length_range] at hi
    rw [List.getElem_range, Nat.mul_comm] at hbit
    exact ⟨i, hi, hbit⟩
  · rintro ⟨i, hi, hbit⟩
    refine ⟨(word bits i, i), ?_, ?_⟩
    · rw [List.mk_mem_zipIdx_iff_getElem?, List.getElem?_map, List.getElem?_range hi, word,
        Nat.mul_comm]
      rfl
    · rw [Nat.mul_comm i 32]
      exact hbit

theorem getLsbD_intLift_u64 (bits : BitVec 64) : ∃ r : BitVec 64, intLift .u64 (intLower .u64 bits) = some r ∧
    ∀ j, r.getLsbD j = true ↔ ∃ i < 2, (place 64 (word bits i) i).getLsbD j = true := by
  have hlow : (bits &&& 0xffffffff).setWidth 32 = word bits 0 := by
    refine BitVec.eq_of_getLsbD_eq fun k hk => ?_
    have hmask : (0xffffffff : BitVec 64) = (BitVec.allOnes 32).setWidth 64 := by decide
    rw [getLsbD_word, BitVec.getLsbD_setWidth, BitVec.getLsbD_and, hmask, BitVec.getLsbD_setWidth,
      BitVec.getLsbD_allOnes, decide_eq_true hk, decide_eq_true (show k < 64 by omega)]
    simp
  have hhigh : ((bits >>> 32) &&& 0xffffffff).setWidth 32 = word bits 1 := by
    refine BitVec.eq_of_getLsbD_eq fun k hk => ?_
    have hmask : (0xffffffff : BitVec 64) = (BitVec.allOnes 32).setWidth 64 := by decide
    rw [getLsbD_word, BitVec.getLsbD_setWidth, BitVec.getLsbD_and, hmask, BitVec.getLsbD_setWidth,
      BitVec.getLsbD_allOnes, decide_eq_true hk, decide_eq_true (show k < 64 by omega),
      BitVec.getLsbD_ushiftRight]
    simp
  refine ⟨place 64 (word bits 0) 0 ||| place 64 (word bits 1) 1, ?_, fun j => ?_⟩
  · rw [← hlow, ← hhigh, place, BitVec.shiftLeft_zero]
    rfl
  rw [BitVec.getLsbD_or, Bool.or_eq_true]
  constructor
  · rintro (h | h)
    · exact ⟨0, by decide, h⟩
    · exact ⟨1, by decide, h⟩
  · rintro ⟨i, hi, h⟩
    obtain rfl | rfl : i = 0 ∨ i = 1 := by omega
    · exact .inl h
    · exact .inr h

/-- What is as wide as the flags keeps them. -/
theorem getLsbD_narrow {w : Nat} (hn : n ≤ w) (hw : w ≤ 32) (s : BitVec n) (j : Nat) (hj : j < n) :
    (((s.setWidth w).setWidth 32).signExtend w).getLsbD j = s.getLsbD j := by
  rw [BitVec.getLsbD_signExtend, decide_eq_true (show j < w by omega), Bool.true_and,
    if_pos (show j < 32 by omega), BitVec.getLsbD_setWidth, BitVec.getLsbD_setWidth,
    decide_eq_true (show j < 32 by omega), decide_eq_true (show j < w by omega), Bool.true_and,
    Bool.true_and]

/-! ## Round trips -/

theorem flagsReprOf_cases (hpos : 0 < n) : n ≤ 8 ∧ flagsReprOf n = .u8 ∨
    n ≤ 16 ∧ flagsReprOf n = .u16 ∨ flagsReprOf n = .u32 ((n + 31) / 32) := by
  unfold flagsReprOf alignTo
  rw [if_neg (by omega)]
  split
  · next h => exact .inl ⟨h, rfl⟩
  · split
    · next h => exact .inr (.inl ⟨h, rfl⟩)
    · exact .inr (.inr (congrArg FlagsRepr.u32 (by omega)))

theorem rust_rebuilt (hpos : 0 < n) (hmax : n ≤ 128) (s : BitVec n) :
    ∃ w, ∃ r : BitVec w, Rust.roundTrip s = some (r.setWidth n) ∧ Rebuilt s r := by
  obtain ⟨repr, hrepr, hwidth, hcount⟩ : ∃ repr, Rust.RustFlagsRepr.new (flagsReprOf n) = some repr ∧
      n ≤ repr.bits ∧ n ≤ 32 * (flagsReprOf n).count := by
    rcases flagsReprOf_cases hpos with ⟨hn, hrepr⟩ | ⟨hn, hrepr⟩ | hrepr
    · exact ⟨.u8, by rw [hrepr]; rfl, hn, by rw [hrepr, FlagsRepr.count]; omega⟩
    · exact ⟨.u16, by rw [hrepr]; rfl, hn, by rw [hrepr, FlagsRepr.count]; omega⟩
    · have hcount : n ≤ 32 * (flagsReprOf n).count := by rw [hrepr, FlagsRepr.count]; omega
      obtain h | h | h | h : (n + 31) / 32 = 1 ∨ (n + 31) / 32 = 2 ∨ (n + 31) / 32 = 3 ∨
        (n + 31) / 32 = 4 := by omega
      · exact ⟨.u32, by rw [hrepr, h]; rfl, by rw [Rust.RustFlagsRepr.bits]; omega, hcount⟩
      · exact ⟨.u64, by rw [hrepr, h]; rfl, by rw [Rust.RustFlagsRepr.bits]; omega, hcount⟩
      · exact ⟨.u128, by rw [hrepr, h]; rfl, by rw [Rust.RustFlagsRepr.bits]; omega, hcount⟩
      · exact ⟨.u128, by rw [hrepr, h]; rfl, hmax, hcount⟩
  refine ⟨repr.bits, _, ?_, rebuilt_of_words hwidth hcount fun j => getLsbD_flagsLift repr _ _ j⟩
  rw [Rust.roundTrip, hrepr]
  rfl

theorem int_rebuilt (hpos : 0 < n) (hmax : n ≤ 64) (s : BitVec n) : ∃ repr, ∃ r : BitVec repr.bits,
    flagsRepr n = some repr ∧ intLift repr (intLower repr (s.setWidth repr.bits)) = some r ∧
      Rebuilt s r := by
  rcases flagsReprOf_cases hpos with ⟨hn, hrepr⟩ | ⟨hn, hrepr⟩ | hrepr
  · exact ⟨.u8, _, by rw [flagsRepr, hrepr], rfl,
      rebuilt_of_narrow (by omega) (getLsbD_narrow hn (by decide) s)⟩
  · exact ⟨.u16, _, by rw [flagsRepr, hrepr], rfl,
      rebuilt_of_narrow (by omega) (getLsbD_narrow hn (by decide) s)⟩
  · rcases Nat.lt_or_ge 32 n with hwide | hn
    · obtain ⟨r, hlift, hr⟩ := getLsbD_intLift_u64 (s.setWidth 64)
      have h : (n + 31) / 32 = 2 := by omega
      exact ⟨.u64, r, by rw [flagsRepr, hrepr, h]; rfl, hlift, rebuilt_of_words hmax (by omega) hr⟩
    · have h : (n + 31) / 32 = 1 := by omega
      exact ⟨.u32, _, by rw [flagsRepr, hrepr, h]; rfl, rfl,
        rebuilt_of_narrow hn (getLsbD_narrow hn (by decide) s)⟩

end

inductive Backend where
  | rust | c | cpp
  deriving DecidableEq

/-- The number of flags the backend supports. -/
def Backend.maxFlags : Backend → Nat
  | rust => 128
  | c | cpp => 64

def Backend.roundTrip (b : Backend) {n : Nat} (s : BitVec n) : Option (BitVec n) :=
  match b with
  | rust => Rust.roundTrip s
  | c => C.roundTrip s
  | cpp => Cpp.roundTrip s

/-- A set of flags is rebuilt from its words unless a flag at the top of a word brings in one
that is not in the set. -/
theorem roundTrip_iff (b : Backend) {n : Nat} (hpos : 0 < n) (hmax : n ≤ b.maxFlags) (s : BitVec n) :
    b.roundTrip s = some s ↔ SignsHarmless s := by
  obtain ⟨w, r, hround, hr⟩ : ∃ w, ∃ r : BitVec w, b.roundTrip s = some (r.setWidth n) ∧ Rebuilt s r := by
    cases b with
    | rust => exact rust_rebuilt hpos hmax s
    | c | cpp =>
      obtain ⟨repr, r, hrepr, hlift, hr⟩ := int_rebuilt hpos hmax s
      refine ⟨repr.bits, r, ?_, hr⟩
      show (flagsRepr n).bind (fun repr => (intLift repr (intLower repr (s.setWidth repr.bits))).bind
        fun flags => some (flags.setWidth n)) = _
      rw [hrepr, Option.bind_some, hlift, Option.bind_some]
  rw [hround, Option.some_inj]
  exact hr.setWidth_eq_iff

/-- Forty flags, of which the first and the last are set, in two words. -/
theorem roundTrip_iff_rust : Backend.rust.roundTrip (0x8000000001 : BitVec 40) = some 0x8000000001 ↔
    SignsHarmless (0x8000000001 : BitVec 40) :=
  roundTrip_iff .rust (by decide) (by decide) 0x8000000001

/-- Of 33 flags, the 32nd alone comes back with the 33rd, in each backend. -/
theorem top_flag_gains_another :
    (33 ≤ Backend.rust.maxFlags ∧ 33 ≤ Backend.c.maxFlags ∧ 33 ≤ Backend.cpp.maxFlags) ∧
      Backend.rust.roundTrip (0x80000000 : BitVec 33) = some (0x180000000 : BitVec 33) ∧
      Backend.c.roundTrip (0x80000000 : BitVec 33) = some (0x180000000 : BitVec 33) ∧
      Backend.cpp.roundTrip (0x80000000 : BitVec 33) = some (0x180000000 : BitVec 33) ∧
      (0x180000000 : BitVec 33) ≠ 0x80000000 := by
  decide +kernel

end WitBindgen.FlagWords
