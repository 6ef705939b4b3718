import Mathlib.Algebra.GroupWithZero.Nat
import Mathlib.Data.Finset.Basic
import Mathlib.Data.Finset.SDiff
import Mathlib.Data.Finset.Insert
import Mathlib.Tactic.Common

/-!
# A byte heap with live blocks

The memory a run works on: bytes that may be uninitialised, the set of live
blocks, and a record of what was released. A load or a store outside every
live block, a load of an uninitialised byte and a release of a block that is
not live are faults, so a run that does not fault never touches memory it does
not own. Running out of memory is a fault of its own.

Nothing here knows what the bytes mean. The event type `ε` is whatever else a
run can do that an observer sees.
-/

namespace Heap

/-- An allocation: where it starts, how long it is, how it is aligned. -/
structure Block where
  addr : Nat
  size : Nat
  align : Nat
deriving DecidableEq

/-- Address `x` lies in the `k` bytes from `a`. -/
def InSpan (a k x : Nat) : Prop := a ≤ x ∧ x < a + k

instance (a k x : Nat) : Decidable (InSpan a k x) := by
  unfold InSpan; infer_instance

def Block.Contains (b : Block) (x : Nat) : Prop := InSpan b.addr b.size x

/-- Why a run stops: memory is exhausted, or the step has no meaning (a wrong
operand, a wild address, a value outside its type). -/
inductive Fault where
  | oom
  | stuck
deriving DecidableEq

structure World (ε : Type) where
  mem : Nat → Option UInt8
  live : Finset Block
  freed : List Block
  log : List ε

abbrev Exec (ε : Type) := StateT (World ε) (Except Fault)

variable {ε α β : Type}

/-! ## Little-endian numbers -/

/-- The `k` little-endian bytes of `n`. -/
def toBytes : Nat → Nat → List UInt8
  | 0, _ => []
  | k + 1, n => UInt8.ofNat (n % 256) :: toBytes k (n / 256)

def ofBytes : List UInt8 → Nat
  | [] => 0
  | b :: bs => b.toNat + 256 * ofBytes bs

@[simp] theorem length_toBytes (k n : Nat) : (toBytes k n).length = k := by
  induction k generalizing n with
  | zero => rfl
  | succ k ih => simp [toBytes, ih]

theorem ofBytes_toBytes (k n : Nat) : ofBytes (toBytes k n) = n % 256 ^ k := by
  induction k generalizing n with
  | zero => simp [toBytes, ofBytes, Nat.mod_one]
  | succ k ih =>
    have hb : (UInt8.ofNat (n % 256)).toNat = n % 256 := by simp
    rw [toBytes, ofBytes, ih, hb, Nat.pow_succ', Nat.mod_mul]

/-! ## Reading and writing bytes -/

/-- `mem` with the bytes `bs` laid down from `a`. -/
def overwrite (mem : Nat → Option UInt8) (a : Nat) (bs : List UInt8) :
    Nat → Option UInt8 :=
  fun x => if InSpan a bs.length x then bs[x - a]? else mem x

/-- The `k` bytes from `a`, when all of them are initialised. -/
def readBytes (mem : Nat → Option UInt8) (a : Nat) : Nat → Option (List UInt8)
  | 0 => some []
  | k + 1 =>
    match mem a, readBytes mem (a + 1) k with
    | some b, some bs => some (b :: bs)
    | _, _ => none

theorem readBytes_congr {mem mem' : Nat → Option UInt8} {a k : Nat}
    (h : ∀ x, InSpan a k x → mem' x = mem x) :
    readBytes mem' a k = readBytes mem a k := by
  induction k generalizing a with
  | zero => rfl
  | succ k ih =>
    have h0 : mem' a = mem a := h a ⟨Nat.le_refl a, by omega⟩
    have hk : readBytes mem' (a + 1) k = readBytes mem (a + 1) k := by
      apply ih
      rintro x ⟨hlo, hhi⟩
      exact h x ⟨by omega, by omega⟩
    simp only [readBytes, h0, hk]

theorem readBytes_of_getElem {mem : Nat → Option UInt8} {bs : List UInt8} {a : Nat}
    (h : ∀ i, i < bs.length → mem (a + i) = bs[i]?) :
    readBytes mem a bs.length = some bs := by
  induction bs generalizing a with
  | nil => rfl
  | cons b bs ih =>
    have h0 : mem a = some b := by simpa using h 0 (by simp)
    have hk : readBytes mem (a + 1) bs.length = some bs := by
      apply ih
      intro i hi
      have hs := h (i + 1) (by simpa using hi)
      rw [show a + (i + 1) = a + 1 + i by omega] at hs
      simpa using hs
    simp only [List.length_cons, readBytes, h0, hk]

theorem readBytes_overwrite (mem : Nat → Option UInt8) (a : Nat) (bs : List UInt8) :
    readBytes (overwrite mem a bs) a bs.length = some bs := by
  apply readBytes_of_getElem
  intro i hi
  rw [overwrite, if_pos ⟨by omega, by omega⟩, Nat.add_sub_cancel_left]

theorem overwrite_of_notMem {mem : Nat → Option UInt8} {a x : Nat} {bs : List UInt8}
    (h : ¬ InSpan a bs.length x) : overwrite mem a bs x = mem x := by
  rw [overwrite, if_neg h]

/-! ## Access -/

/-- The `k` bytes from `a` lie inside one live block. An empty span needs none. -/
def Accessible (live : Finset Block) (a k : Nat) : Prop :=
  k = 0 ∨ ∃ b ∈ live, b.addr ≤ a ∧ a + k ≤ b.addr + b.size

instance (live : Finset Block) (a k : Nat) : Decidable (Accessible live a k) := by
  unfold Accessible; infer_instance

/-- The span `(a', k')` lies inside the span `(a, k)`. -/
def Inside (a' k' a k : Nat) : Prop := k' = 0 ∨ (a ≤ a' ∧ a' + k' ≤ a + k)

/-- The two spans share no address. -/
def Apart (a k a' k' : Nat) : Prop := a + k ≤ a' ∨ a' + k' ≤ a

theorem Inside.refl (a k : Nat) : Inside a k a k := Or.inr ⟨Nat.le_refl _, Nat.le_refl _⟩

theorem Inside.empty {a' a k : Nat} : Inside a' 0 a k := Or.inl rfl

theorem Inside.mem {a' k' a k x : Nat} (h : Inside a' k' a k) (hx : InSpan a' k' x) :
    InSpan a k x := by
  obtain ⟨hlo, hhi⟩ := hx
  rcases h with rfl | ⟨h1, h2⟩
  · omega
  · exact ⟨by omega, by omega⟩

theorem Apart.notMem {a k a' k' x : Nat} (h : Apart a k a' k') (hx : InSpan a k x) :
    ¬ InSpan a' k' x := by
  rintro ⟨hlo, hhi⟩
  obtain ⟨h1, h2⟩ := hx
  rcases h with h | h <;> omega

theorem Accessible.mono {live live' : Finset Block} {a k a' k' : Nat}
    (h : Accessible live a k) (hl : live ⊆ live') (hin : Inside a' k' a k) :
    Accessible live' a' k' := by
  rcases hin with rfl | ⟨h1, h2⟩
  · exact Or.inl rfl
  rcases h with rfl | ⟨b, hb, h3, h4⟩
  · exact Or.inl (by omega)
  · exact Or.inr ⟨b, hl hb, by omega, by omega⟩

/-- An address of an accessible span is an address of a live block. -/
theorem Accessible.block {live : Finset Block} {a k x : Nat}
    (h : Accessible live a k) (hx : InSpan a k x) : ∃ b ∈ live, b.Contains x := by
  obtain ⟨hlo, hhi⟩ := hx
  rcases h with rfl | ⟨b, hb, h1, h2⟩
  · omega
  · exact ⟨b, hb, by omega, by omega⟩

/-! ## The operations of a run -/

def oom : Exec ε α := fun _ => .error .oom

def stuck : Exec ε α := fun _ => .error .stuck

/-- The value of `o`, or a fault when there is none. -/
def require (o : Option α) : Exec ε α :=
  match o with
  | some x => pure x
  | none => stuck

def storeBytes (a : Nat) (bs : List UInt8) : Exec ε Unit := fun w =>
  if Accessible w.live a bs.length then
    .ok ((), { w with mem := overwrite w.mem a bs })
  else .error .stuck

def loadBytes (a k : Nat) : Exec ε (List UInt8) := fun w =>
  if Accessible w.live a k then
    match readBytes w.mem a k with
    | some bs => .ok (bs, w)
    | none => .error .stuck
  else .error .stuck

/-- Store the low `k` bytes of `n` at `a`. -/
def storeNat (a k n : Nat) : Exec ε Unit := storeBytes a (toBytes k n)

def loadNat (a k : Nat) : Exec ε Nat := do
  let bs ← loadBytes a k
  pure (ofBytes bs)

/-- An allocator hands out blocks apart from every live one, below `limit`, or
reports that there is none. -/
structure Allocator (limit : Nat) where
  alloc : Finset Block → Nat → Nat → Option Nat
  fresh : ∀ {live size align a}, alloc live size align = some a →
    ⟨a, size, align⟩ ∉ live ∧
      ∀ b ∈ live, ∀ x, b.Contains x → ¬ InSpan a size x
  addr_lt : ∀ {live size align a}, alloc live size align = some a → a < limit

variable {limit : Nat}

/-- Allocate a block. Its bytes start uninitialised. -/
def allocate (A : Allocator limit) (size align : Nat) : Exec ε Nat := fun w =>
  match A.alloc w.live size align with
  | none => .error .oom
  | some a =>
    .ok (a, { w with
      live := insert ⟨a, size, align⟩ w.live
      mem := fun x => if InSpan a size x then none else w.mem x })

/-- Release a live block. Releasing anything else is a fault. -/
def release (b : Block) : Exec ε Unit := fun w =>
  if b ∈ w.live then
    .ok ((), { w with live := w.live.erase b, freed := w.freed ++ [b] })
  else .error .stuck

/-- Record an event. -/
def note (e : ε) : Exec ε Unit := fun w => .ok ((), { w with log := w.log ++ [e] })

/-! ## How the operations compute -/

@[simp] theorem run_pure (x : α) (w : World ε) : (pure x : Exec ε α) w = .ok (x, w) := rfl

@[simp] theorem run_stuck (w : World ε) : (stuck : Exec ε α) w = .error .stuck := rfl

@[simp] theorem run_oom (w : World ε) : (oom : Exec ε α) w = .error .oom := rfl

@[simp] theorem require_some (x : α) : (require (some x) : Exec ε α) = pure x := rfl

@[simp] theorem require_none : (require none : Exec ε α) = stuck := rfl

@[simp] theorem stuck_bind (f : α → Exec ε β) : (stuck >>= f) = stuck := rfl

theorem run_bind (x : Exec ε α) (f : α → Exec ε β) (w : World ε) :
    (x >>= f) w = match x w with
      | .ok (a, w') => f a w'
      | .error e => .error e := by
  show (x w >>= fun p => f p.1 p.2) = _
  cases x w with
  | error e => rfl
  | ok p => rfl

theorem run_bind_ok {x : Exec ε α} {f : α → Exec ε β} {w w' : World ε} {a : α}
    (h : x w = .ok (a, w')) : (x >>= f) w = f a w' := by
  rw [run_bind, h]

theorem run_bind_error {x : Exec ε α} {f : α → Exec ε β} {w : World ε} {e : Fault}
    (h : x w = .error e) : (x >>= f) w = .error e := by
  rw [run_bind, h]

theorem run_map_ok {x : Exec ε α} {f : α → β} {w w' : World ε} {a : α}
    (h : x w = .ok (a, w')) : (f <$> x) w = .ok (f a, w') := by
  rw [map_eq_pure_bind, run_bind_ok h]
  rfl

/-- A finished sequence finished its first part and then its second. -/
theorem run_bind_eq_ok {x : Exec ε α} {f : α → Exec ε β} {w w' : World ε} {b : β}
    (h : (x >>= f) w = .ok (b, w')) :
    ∃ a w₁, x w = .ok (a, w₁) ∧ f a w₁ = .ok (b, w') := by
  rw [run_bind] at h
  cases hx : x w with
  | error e => rw [hx] at h; cases h
  | ok p => rw [hx] at h; exact ⟨p.1, p.2, rfl, h⟩

theorem storeBytes_ok {w : World ε} {a : Nat} {bs : List UInt8}
    (h : Accessible w.live a bs.length) :
    storeBytes a bs w = .ok ((), { w with mem := overwrite w.mem a bs }) := by
  rw [storeBytes, if_pos h]

theorem loadBytes_ok {w : World ε} {a k : Nat} {bs : List UInt8}
    (h : Accessible w.live a k) (hr : readBytes w.mem a k = some bs) :
    loadBytes a k w = .ok (bs, w) := by
  rw [loadBytes, if_pos h, hr]

theorem loadNat_ok {w : World ε} {a k : Nat} {bs : List UInt8}
    (h : loadBytes a k w = .ok (bs, w)) : loadNat a k w = .ok (ofBytes bs, w) := by
  rw [loadNat, run_bind_ok h]
  rfl

theorem release_ok {w : World ε} {b : Block} (h : b ∈ w.live) :
    release b w = .ok ((), { w with live := w.live.erase b, freed := w.freed ++ [b] }) := by
  rw [release, if_pos h]

end Heap
