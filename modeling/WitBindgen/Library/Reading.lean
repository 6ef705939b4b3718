import WitBindgen.Library.Heap

/-!
# What a computation reads

A computation that only reads memory, with the accesses it makes written down. Each
access belongs to a place, the part of memory that the value being read occupies, and
the question is whether it stays inside. `Stays` answers it exactly: the computation
stays inside where a condition holds, and leaves its place where it does not.
-/

/-- A part of memory that holds a value. -/
structure Place where
  start : Nat
  size : Nat

structure Access where
  place : Place
  addr : Nat
  width : Nat

def Access.Inside (x : Access) : Prop :=
  x.place.start ≤ x.addr ∧ x.addr + x.width ≤ x.place.start + x.place.size

/-- A computation over a memory: its accesses, and its result unless it panics. -/
def Reading (α : Type) := (Nat → UInt8) → List Access × Option α

namespace Reading

variable {α β : Type} {mem : Nat → UInt8}

def andThen (x : Reading α) (f : α → Reading β) : Reading β := fun mem =>
  match x mem with
  | (accesses, none) => (accesses, none)
  | (accesses, some a) => (accesses ++ (f a mem).1, (f a mem).2)

instance : Monad Reading where
  pure a := fun _ => ([], some a)
  bind := andThen

instance : LawfulMonad Reading := LawfulMonad.mk' Reading
  (fun x => by
    funext mem
    show andThen x (fun a _ => ([], some a)) mem = x mem
    simp only [andThen]
    split
    · next accesses h => rw [h]
    · next accesses a h => rw [h, List.append_nil])
  (fun a f => by
    funext mem
    exact Prod.ext (List.nil_append _) rfl)
  (fun x f g => by
    funext mem
    show andThen (andThen x f) g mem = andThen x (fun a => andThen (f a) g) mem
    simp only [andThen]
    cases x mem with
    | mk accesses result =>
      cases result with
      | none => rfl
      | some a =>
        dsimp only
        cases f a mem with
        | mk accesses' result' =>
          cases result' with
          | none => rfl
          | some b => exact Prod.ext (List.append_assoc ..) rfl)

def panic : Reading α := fun _ => ([], none)

/-- The little-endian number in the `width` bytes from `addr`. -/
def peek (mem : Nat → UInt8) (addr width : Nat) : Nat :=
  Heap.ofBytes ((List.range width).map fun i => mem (addr + i))

def load (place : Place) (addr width : Nat) : Reading Nat := fun mem =>
  ([⟨place, addr, width⟩], some (peek mem addr width))

/-- Where `fits` holds, `x` stays in its places and has a result with `P`. Where it does not,
`x` leaves one. -/
structure Stays (mem : Nat → UInt8) (fits : Prop) (x : Reading α) (P : α → Prop) : Prop where
  inside : fits → ∀ e ∈ (x mem).1, e.Inside
  result : fits → ∃ a, (x mem).2 = some a ∧ P a
  leaves : ¬fits → ∃ e ∈ (x mem).1, ¬e.Inside

namespace Stays

variable {fits fits' : Prop} {x : Reading α} {P : α → Prop}

theorem iff (h : Stays mem fits x P) : (∀ e ∈ (x mem).1, e.Inside) ↔ fits := by
  constructor
  · intro hall
    by_contra hnot
    obtain ⟨e, he, hout⟩ := h.leaves hnot
    exact hout (hall e he)
  · exact h.inside

theorem congr (h : Stays mem fits x P) (hfits : fits ↔ fits') : Stays mem fits' x P :=
  propext hfits ▸ h

theorem mono {Q : α → Prop} (h : Stays mem fits x P) (hP : ∀ a, P a → Q a) : Stays mem fits x Q :=
  ⟨h.inside, fun hf => (h.result hf).imp fun a ha => ⟨ha.1, hP a ha.2⟩, h.leaves⟩

theorem pure {a : α} (h : P a) : Stays mem True (Pure.pure a : Reading α) P :=
  ⟨fun _ => nofun, fun _ => ⟨a, rfl, h⟩, fun hnot => absurd trivial hnot⟩

theorem load {place : Place} {addr width : Nat} {P : Nat → Prop} (h : P (peek mem addr width)) :
    Stays mem (place.start ≤ addr ∧ addr + width ≤ place.start + place.size)
      (Reading.load place addr width) P := by
  refine ⟨fun hin e he => ?_, fun _ => ⟨_, rfl, h⟩, fun hout => ⟨_, List.mem_singleton_self _, hout⟩⟩
  obtain rfl := List.mem_singleton.mp he
  exact hin

theorem bind {Q : β → Prop} {f : α → Reading β} (hx : Stays mem fits x P)
    (hf : ∀ a, P a → Stays mem fits' (f a) Q) : Stays mem (fits ∧ fits') (x >>= f) Q := by
  have hbind : (x >>= f) mem = andThen x f mem := rfl
  constructor
  · rintro ⟨hfits, hfits'⟩ e he
    obtain ⟨a, ha, hP⟩ := hx.result hfits
    have hpair : x mem = ((x mem).1, some a) := Prod.ext rfl ha
    rw [hbind, andThen, hpair] at he
    rcases List.mem_append.mp he with he | he
    · exact hx.inside hfits e he
    · exact (hf a hP).inside hfits' e he
  · rintro ⟨hfits, hfits'⟩
    obtain ⟨a, ha, hP⟩ := hx.result hfits
    have hpair : x mem = ((x mem).1, some a) := Prod.ext rfl ha
    rw [hbind, andThen, hpair]
    exact (hf a hP).result hfits'
  · intro hnot
    by_cases hfits : fits
    · obtain ⟨a, ha, hP⟩ := hx.result hfits
      obtain ⟨e, he, hout⟩ := (hf a hP).leaves fun hfits' => hnot ⟨hfits, hfits'⟩
      have hpair : x mem = ((x mem).1, some a) := Prod.ext rfl ha
      rw [hbind, andThen, hpair]
      exact ⟨e, List.mem_append_right _ he, hout⟩
    · obtain ⟨e, he, hout⟩ := hx.leaves hfits
      refine ⟨e, ?_, hout⟩
      rw [hbind, andThen]
      split
      · next accesses hpair => rwa [hpair] at he
      · next accesses a hpair =>
        rw [hpair] at he
        exact List.mem_append_left _ he

/-- A computation that is run for its accesses only. -/
theorem seq {Q : β → Prop} {y : Reading β} (hx : Stays mem fits x P) (hy : Stays mem fits' y Q) :
    Stays mem (fits ∧ fits') (x >>= fun _ => y) Q := hx.bind fun _ _ => hy

theorem forM {ι : Type} {F : ι → Prop} {g : ι → Reading PUnit} {xs : List ι}
    (h : ∀ i ∈ xs, Stays mem (F i) (g i) fun _ => True) :
    Stays mem (∀ i ∈ xs, F i) (xs.forM g) fun _ => True := by
  induction xs with
  | nil => exact (Stays.pure (a := PUnit.unit) trivial).congr (by simp)
  | cons i xs ih =>
    have hall := (h i List.mem_cons_self).seq (ih fun j hj => h j (List.mem_cons_of_mem _ hj))
    exact hall.congr List.forall_mem_cons.symm

end Stays

/-! ## Numbers in memory -/

theorem peek_succ (addr width : Nat) :
    peek mem addr (width + 1) = (mem addr).toNat + 256 * peek mem (addr + 1) width := by
  rw [peek, List.range_succ_eq_map, List.map_cons, List.map_map, Heap.ofBytes, peek]
  simp only [Nat.add_zero, Function.comp_def, Nat.succ_eq_add_one, Nat.add_assoc, Nat.add_comm 1]

/-- A wider load has the narrower one in its low bytes. -/
theorem peek_mod (addr width more : Nat) :
    peek mem addr (width + more) % 256 ^ width = peek mem addr width := by
  induction width generalizing addr with
  | zero => simp [peek, Heap.ofBytes, Nat.mod_one]
  | succ width ih =>
    have hbyte := (mem addr).toNat_lt
    have hlow : ((mem addr).toNat + 256 * peek mem (addr + 1) (width + more)) % 256 = (mem addr).toNat := by
      omega
    have hhigh : ((mem addr).toNat + 256 * peek mem (addr + 1) (width + more)) / 256 =
        peek mem (addr + 1) (width + more) := by omega
    rw [Nat.add_right_comm, peek_succ, peek_succ, Nat.pow_succ', Nat.mod_mul, hlow, hhigh, ih (addr + 1)]

/-- `mem` has the bytes that a world knows. -/
def Shows {ε : Type} (w : Heap.World ε) (mem : Nat → UInt8) : Prop := ∀ x b, w.mem x = some b → mem x = b

theorem peek_of_readBytes {known : Nat → Option UInt8} (hknown : ∀ x b, known x = some b → mem x = b)
    {a k : Nat} {bs : List UInt8} (h : Heap.readBytes known a k = some bs) : peek mem a k = Heap.ofBytes bs := by
  induction k generalizing a bs with
  | zero =>
    obtain rfl : [] = bs := Option.some.inj h
    rfl
  | succ k ih =>
    rw [Heap.readBytes] at h
    split at h
    · next b rest hb hrest =>
      obtain rfl := Option.some.inj h
      rw [peek_succ, ih hrest, hknown a b hb, Heap.ofBytes]
    · cases h

theorem peek_of_loadNat {ε : Type} {w w' : Heap.World ε} (hmem : Shows w mem) {a k n : Nat}
    (h : Heap.loadNat a k w = .ok (n, w')) : peek mem a k = n := by
  obtain ⟨bs, w₁, hload, hn⟩ := Heap.run_bind_eq_ok h
  cases hn
  rw [Heap.loadBytes] at hload
  split at hload
  · split at hload
    · next bs' hbytes =>
      cases hload
      exact peek_of_readBytes hmem hbytes
    · cases hload
  · cases hload

end Reading
