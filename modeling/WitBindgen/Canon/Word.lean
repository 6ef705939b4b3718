import WitBindgen.Library.Footprint
import WitBindgen.Abi.Instruction

/-!
# Core values

What a WIT scalar, a discriminant or a set of flags is as core values, and what
a bitcast does to one. A core value is its type with its bits.
-/

namespace WitBindgen

open Heap

/-- What the code runs against: the parser's layouts, the width of a pointer in
bytes and the allocator behind `cabi_realloc`. -/
structure Target where
  W : WitParser
  p : Nat
  A : Allocator (256 ^ p)

structure Word where
  ty : WasmType
  bits : Nat
deriving DecidableEq

/-- The bits of a core value stay below the width of its type. -/
def Word.Bounded (p : Nat) (w : Word) : Prop := w.bits < 256 ^ w.ty.bytes p

/-- What a run does besides moving bytes. -/
inductive Event where
  | dropHandle (ty : Ty) (handle : BitVec 32)
  | called (name : String) (args : List Val)
  | taskReturn (name : String) (args : List Word)

/-! ## Scalars -/

/-- Sign extension is undone by truncation. -/
theorem setWidth_signExtend {w k : Nat} (x : BitVec w) (h : w ≤ k) :
    (x.signExtend k).setWidth w = x := by
  ext i hi
  have hik : i < k := Nat.lt_of_lt_of_le hi h
  rw [BitVec.getElem_setWidth, BitVec.getLsbD_signExtend]
  simp [hi, hik]

theorem toNat_signExtend_mod {w k : Nat} (x : BitVec w) (h : w ≤ k) :
    (x.signExtend k).toNat % 2 ^ w = x.toNat := by
  rw [← BitVec.toNat_setWidth, setWidth_signExtend x h]

namespace Prim

/-- The bits of the core value a scalar is lowered to. Narrow signed integers
are sign-extended. -/
def encode : Prim → Val → Option Nat
  | .bool, .bool b => some b.toNat
  | .u8, .u8 x => some x.toNat
  | .s8, .s8 x => some (x.signExtend 32).toNat
  | .u16, .u16 x => some x.toNat
  | .s16, .s16 x => some (x.signExtend 32).toNat
  | .u32, .u32 x => some x.toNat
  | .s32, .s32 x => some x.toNat
  | .u64, .u64 x => some x.toNat
  | .s64, .s64 x => some x.toNat
  | .f32, .f32 x => some x.toNat
  | .f64, .f64 x => some x.toNat
  | .char, .char c => some c.toNat
  | _, _ => none

/-- The scalar in the bits of a core value: the upper bits are truncated, and a
`bool` other than zero or one or a `char` that is no scalar value traps. -/
def decode (q : Prim) (n : Nat) : Option Val :=
  match q with
  | .bool => if n = 0 then some (.bool false) else if n = 1 then some (.bool true) else none
  | .u8 => some (.u8 (BitVec.ofNat 8 n))
  | .s8 => some (.s8 (BitVec.ofNat 8 n))
  | .u16 => some (.u16 (BitVec.ofNat 16 n))
  | .s16 => some (.s16 (BitVec.ofNat 16 n))
  | .u32 => some (.u32 (BitVec.ofNat 32 n))
  | .s32 => some (.s32 (BitVec.ofNat 32 n))
  | .u64 => some (.u64 (BitVec.ofNat 64 n))
  | .s64 => some (.s64 (BitVec.ofNat 64 n))
  | .f32 => some (.f32 (BitVec.ofNat 32 n))
  | .f64 => some (.f64 (BitVec.ofNat 64 n))
  | .char => if n.isValidChar then some (.char (Char.ofNat n)) else none

/-- The core value a load of the scalar's bytes pushes: the loads of narrow
signed integers sign-extend. -/
def extend (q : Prim) (n : Nat) : Nat :=
  match q with
  | .s8 => ((BitVec.ofNat 8 n).signExtend 32).toNat
  | .s16 => ((BitVec.ofNat 16 n).signExtend 32).toNat
  | _ => n

theorem encode_of_holds {q : Prim} {v : Val} (h : q.Holds v) : ∃ n, q.encode v = some n := by
  unfold Holds at h
  split at h <;> first | exact ⟨_, rfl⟩ | exact h.elim

theorem encode_lt {q : Prim} {v : Val} {n : Nat} (p : Nat) (h : q.encode v = some n) :
    n < 256 ^ q.flat.bytes p := by
  unfold encode at h
  split at h <;> simp only [Option.some.injEq, reduceCtorEq] at h <;> subst h
  case h_1 b => cases b <;> simp [flat, WasmType.bytes]
  case h_12 c =>
    have : c.toNat < 0x110000 := by
      rcases c.valid with h | h
      · exact Nat.lt_trans h (by decide)
      · exact h.2
    simp only [flat, WasmType.bytes]
    omega
  all_goals
    simp only [flat, WasmType.bytes]
    omega

theorem decode_encode {q : Prim} {v : Val} {n : Nat} (h : q.encode v = some n) :
    q.decode n = some v := by
  unfold encode at h
  split at h <;> simp only [Option.some.injEq, reduceCtorEq] at h <;> subst h
  case h_1 b => cases b <;> rfl
  case h_12 c =>
    have hv : c.toNat.isValidChar := c.valid
    simp [decode, hv]
  all_goals simp [decode, setWidth_signExtend]

/-- What is stored of a scalar and loaded again is the scalar. -/
theorem decode_extend {q : Prim} {v : Val} {n : Nat} (h : q.encode v = some n) :
    q.decode (q.extend (n % 256 ^ q.bytes)) = some v := by
  unfold encode at h
  split at h <;> simp only [Option.some.injEq, reduceCtorEq] at h <;> subst h
  case h_1 b => cases b <;> rfl
  case h_12 c =>
    have hv : c.toNat.isValidChar := c.valid
    have hlt : c.toNat < 256 ^ 4 := by
      rcases hv with h | h
      · exact Nat.lt_trans h (by decide)
      · exact Nat.lt_trans h.2 (by decide)
    simp only [decode, extend, bytes, Nat.mod_eq_of_lt hlt]
    simp [hv]
  all_goals
    simp only [decode, extend, bytes, Option.some.injEq, Val.u8.injEq, Val.s8.injEq,
      Val.u16.injEq, Val.s16.injEq, Val.u32.injEq, Val.s32.injEq, Val.u64.injEq,
      Val.s64.injEq, Val.f32.injEq, Val.f64.injEq]
    apply BitVec.eq_of_toNat_eq
    rename_i x
    have hx := x.isLt
    simp [setWidth_signExtend]
    first | exact hx | exact toNat_signExtend_mod x (by decide)

end Prim

/-! ## Discriminants and padding -/

/-- The `i32.const` of the case numbered `i`. -/
def disc (i : Nat) : Word := ⟨.i32, (BitVec.ofNat 32 i).toNat⟩

/-- The zeros that fill the slots a case does not use. -/
def zeros (tys : List WasmType) : List Word := tys.map fun ty => ⟨ty, 0⟩

@[simp] theorem length_zeros (tys : List WasmType) : (zeros tys).length = tys.length := by
  simp [zeros]

theorem disc_bits {i : Nat} (h : i < 2 ^ 32) : (disc i).bits = i := by
  simp only [disc, BitVec.toNat_ofNat]
  exact Nat.mod_eq_of_lt h

/-! ## Flags -/

/-- The number whose bit `i` is the `i`-th flag. -/
def ofBools : List Bool → Nat
  | [] => 0
  | b :: bs => b.toNat + 2 * ofBools bs

theorem ofBools_lt (bs : List Bool) : ofBools bs < 2 ^ bs.length := by
  induction bs with
  | nil => simp [ofBools]
  | cons b bs ih =>
    have hb : b.toNat ≤ 1 := by cases b <;> simp
    rw [ofBools, List.length_cons, Nat.pow_succ']
    omega

theorem testBit_ofBools (bs : List Bool) (i : Nat) :
    (ofBools bs).testBit i = bs.getD i false := by
  induction bs generalizing i with
  | nil => simp [ofBools]
  | cons b bs ih =>
    have hrw : ofBools (b :: bs) = 2 * ofBools bs + b.toNat := by rw [ofBools, Nat.add_comm]
    have hb : b.toNat < 2 := by cases b <;> simp
    cases i with
    | zero =>
      rw [hrw, Nat.testBit_zero]
      cases b <;> simp
    | succ i =>
      rw [hrw, Nat.testBit_succ, Nat.mul_add_div (by decide), Nat.div_eq_of_lt hb,
        Nat.add_zero, ih]
      simp

/-- A set of flags as words of 32 flags each. -/
def flagWords (count : Nat) (bs : List Bool) : List Nat :=
  (List.range count).map fun j => ofBools ((bs.drop (32 * j)).take 32)

/-- The first `n` flags in a list of words. -/
def flagBits (n : Nat) (ws : List Nat) : List Bool :=
  (List.range n).map fun i => (ws.getD (i / 32) 0).testBit (i % 32)

@[simp] theorem length_flagWords (count : Nat) (bs : List Bool) :
    (flagWords count bs).length = count := by
  simp [flagWords]

theorem flagBits_flagWords {count : Nat} {bs : List Bool} (h : bs.length ≤ 32 * count) :
    flagBits bs.length (flagWords count bs) = bs := by
  apply List.ext_getElem
  · simp [flagBits]
  intro i hi hi'
  have hj : i / 32 < count := by omega
  have hword : (flagWords count bs).getD (i / 32) 0 =
      ofBools ((bs.drop (32 * (i / 32))).take 32) := by
    simp [flagWords, hj]
  have hsplit : 32 * (i / 32) + i % 32 = i := Nat.div_add_mod i 32
  have hbit : ((bs.drop (32 * (i / 32))).take 32)[i % 32]? = bs[i]? := by
    rw [List.getElem?_take_of_lt (Nat.mod_lt i (by decide)), List.getElem?_drop, hsplit]
  simp only [flagBits, List.getElem_map, List.getElem_range]
  rw [hword, testBit_ofBools, List.getD_eq_getElem?_getD, hbit,
    List.getElem?_eq_getElem hi', Option.getD_some]

/-- Each word of a set of flags fits the bytes its representation gives it. -/
theorem flagWords_lt (repr : FlagsRepr) {bs : List Bool}
    (h : bs.length ≤ 8 * (repr.wordBytes * repr.count)) :
    ∀ w ∈ flagWords repr.count bs, w < 256 ^ repr.wordBytes := by
  intro w hw
  simp only [flagWords, List.mem_map, List.mem_range] at hw
  obtain ⟨j, hj, rfl⟩ := hw
  have hlt := ofBools_lt ((bs.drop (32 * j)).take 32)
  have hpow : (256 : Nat) ^ repr.wordBytes = 2 ^ (8 * repr.wordBytes) := by
    rw [Nat.pow_mul]
  rw [hpow]
  refine Nat.lt_of_lt_of_le hlt (Nat.pow_le_pow_right (by decide) ?_)
  simp only [List.length_take, List.length_drop]
  cases repr with
  | u8 => simp only [FlagsRepr.wordBytes, FlagsRepr.count] at *; omega
  | u16 => simp only [FlagsRepr.wordBytes, FlagsRepr.count] at *; omega
  | u32 n => simp only [FlagsRepr.wordBytes]; omega

/-! ## Bitcasts -/

/-- The core types a bitcast that is neither `Sequence` nor `None` goes between. -/
def Bitcast.ends : Bitcast → Option (WasmType × WasmType)
  | .f32ToI32 => some (.f32, .i32)
  | .f64ToI64 => some (.f64, .i64)
  | .i32ToI64 => some (.i32, .i64)
  | .f32ToI64 => some (.f32, .i64)
  | .i32ToF32 => some (.i32, .f32)
  | .i64ToF64 => some (.i64, .f64)
  | .i64ToI32 => some (.i64, .i32)
  | .i64ToF32 => some (.i64, .f32)
  | .p64ToI64 => some (.pointerOrI64, .i64)
  | .i64ToP64 => some (.i64, .pointerOrI64)
  | .p64ToP => some (.pointerOrI64, .pointer)
  | .pToP64 => some (.pointer, .pointerOrI64)
  | .i32ToP => some (.i32, .pointer)
  | .pToI32 => some (.pointer, .i32)
  | .pToL => some (.pointer, .length)
  | .lToP => some (.length, .pointer)
  | .i32ToL => some (.i32, .length)
  | .lToI32 => some (.length, .i32)
  | .i64ToL => some (.i64, .length)
  | .lToI64 => some (.length, .i64)
  | .sequence _ _ | .none => .none

section
variable (p : Nat)

/-- Reinterpret or zero-extend or truncate a value of core type `src` as one of
core type `dst`. -/
def recast (src dst : WasmType) (w : Word) : Option Word :=
  if w.ty = src then some ⟨dst, w.bits % 256 ^ src.bytes p % 256 ^ dst.bytes p⟩ else none

def Bitcast.apply : Bitcast → Word → Option Word
  | .none, w => some w
  | .sequence b₁ b₂, w => (b₁.apply w).bind b₂.apply
  | b, w => b.ends.bind fun (src, dst) => recast p src dst w

/-- What the bitcast between two core types does. -/
def castWord (src dst : WasmType) (w : Word) : Option Word :=
  if src = dst then some w else recast p src dst w

def castWords (src dst : List WasmType) (ws : List Word) : Option (List Word) :=
  ((src.zip dst).zip ws).mapM fun x => castWord p x.1.1 x.1.2 x.2

end

variable {p : Nat}

theorem WasmType.JoinsInto.bytes_le {a j : WasmType} (h : a.JoinsInto j)
    (hp : p = 4 ∨ p = 8) : a.bytes p ≤ j.bytes p := by
  rcases hp with rfl | rfl <;> cases a <;> cases j <;> first | exact False.elim h | decide

/-- Every pair that can occur has a bitcast in both directions. -/
theorem WasmType.JoinsInto.cast_some {a j : WasmType} (h : a.JoinsInto j) :
    ∃ c c', cast a j = some c ∧ cast j a = some c' := by
  cases a <;> cases j <;> first | exact False.elim h | exact ⟨_, _, rfl, rfl⟩

/-- A bitcast from the table does what `castWord` says, through whichever core
type it goes. -/
theorem apply_cast {a j : WasmType} {c : Bitcast} (hp : p = 4 ∨ p = 8)
    (h : cast a j = some c) (w : Word) : c.apply p w = castWord p a j w := by
  have h48 : (256 : Nat) ^ 4 ∣ 256 ^ 8 := Nat.pow_dvd_pow 256 (by decide)
  rcases hp with rfl | rfl <;> cases a <;> cases j <;>
    simp only [cast, Option.some.injEq, reduceCtorEq] at h <;> subst h <;>
    simp only [Bitcast.apply, Bitcast.ends, castWord, recast, WasmType.bytes, if_true,
      reduceCtorEq, if_false, Option.bind_some] <;>
    split <;> simp [Nat.mod_mod_of_dvd]

/-- Casting a value to a slot it joins into and back gives the value. -/
theorem castWord_back {a j : WasmType} {w : Word} (hp : p = 4 ∨ p = 8)
    (h : a.JoinsInto j) (hty : w.ty = a) (hb : w.Bounded p) :
    ∃ w', castWord p a j w = some w' ∧ w'.ty = j ∧ w'.Bounded p ∧
      castWord p j a w' = some w := by
  subst hty
  unfold castWord recast
  by_cases heq : w.ty = j
  · exact ⟨w, by simp [heq], heq, hb, by simp [heq]⟩
  · have hle : (256 : Nat) ^ w.ty.bytes p ≤ 256 ^ j.bytes p :=
      Nat.pow_le_pow_right (by decide) (h.bytes_le hp)
    have hsrc : w.bits % 256 ^ w.ty.bytes p = w.bits := Nat.mod_eq_of_lt hb
    have hdst : w.bits % 256 ^ j.bytes p = w.bits :=
      Nat.mod_eq_of_lt (Nat.lt_of_lt_of_le hb hle)
    refine ⟨⟨j, w.bits⟩, by simp [heq, hsrc, hdst], rfl, Nat.lt_of_lt_of_le hb hle, ?_⟩
    simp [Ne.symm heq, hsrc, hdst]

end WitBindgen
