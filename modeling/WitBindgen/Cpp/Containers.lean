import WitBindgen.Library.Bookkeeping
import Mathlib.Tactic.Common

/-!
# The owning containers of the C++ bindings

`wit::string`, `wit::vector` and `wit::unordered_map`. Each is a pointer and a length;
the pointer is null in a container that was moved from or leaked, and a sentinel in one
that was constructed empty. Objects are trees: a container that has a buffer holds the
elements in it. The members are functions on objects, with the allocations, frees and
element lifetimes as events.
-/

namespace WitBindgen.Cpp.Containers

/-! ## Objects -/

inductive Class where
  | vector
  | unorderedMap
  deriving DecidableEq

/-- What the containers are instantiated with. A `struct` or a tuple is a pair of its
first member and the others; an optional, a variant and an expected are sums. -/
inductive Ty where
  | scalar
  | string
  | container (c : Class) (elem : Ty)
  | pair (first second : Ty)
  | sum (first second : Ty)
  deriving DecidableEq

namespace Ty

abbrev vector (elem : Ty) : Ty := container .vector elem

/-- The elements of a map are its `entry_type`. -/
abbrev unorderedMap (key value : Ty) : Ty := container .unorderedMap (pair key value)

/-- A destructor that does something. -/
def hasDestructor : Ty → Bool
  | scalar => false
  | string => true
  | container _ _ => true
  | pair a b => a.hasDestructor || b.hasDestructor
  | sum a b => a.hasDestructor || b.hasDestructor

def size : Ty → Nat
  | scalar => 1
  | string => 1
  | container _ elem => elem.size + 1
  | pair a b => a.size + b.size + 1
  | sum a b => a.size + b.size + 1

end Ty

/-- `data_`: null, `empty_ptr()`, or what `malloc` returned. -/
inductive Ptr where
  | null
  | empty
  | heap (id : Nat)
  deriving DecidableEq

def Ptr.ids : Ptr → List Nat
  | heap id => [id]
  | null => []
  | empty => []

inductive Event where
  | malloc (id : Nat)
  /-- Placement of element `i` of a buffer. -/
  | constructed (data : Ptr) (i : Nat)
  | destroyed (data : Ptr) (i : Nat)
  | free (data : Ptr)
  | leaked (id : Nat)
  deriving DecidableEq

inductive Obj where
  /-- Memory for an object that has not been constructed. -/
  | storage (t : Ty)
  | scalar
  | string (data : Ptr) (length : Nat)
  | container (c : Class) (elem : Ty) (data : Ptr) (length : Nat) (elems : List Obj)
  | pair (first second : Obj)
  | left (o : Obj) (second : Ty)
  | right (first : Ty) (o : Obj)

namespace Obj

def isStorage : Obj → Bool
  | storage _ => true
  | _ => false

def type : Obj → Ty
  | storage t => t
  | scalar => .scalar
  | string _ _ => .string
  | container c elem _ _ _ => .container c elem
  | pair a b => .pair a.type b.type
  | left o second => .sum o.type second
  | right first o => .sum first o.type

/-! ### The members -/

mutual

/-- The destructors. Members go in the reverse order of their declaration. -/
def destroy : Obj → List Event
  | storage _ => []
  | scalar => []
  | string data _ => if data ≠ .null ∧ data ≠ .empty then [Event.free data] else []
  | container _ elem data length elems =>
    if data ≠ .null ∧ length > 0 then destroyElems elem data 0 elems ++ [Event.free data] else []
  | pair a b => destroy b ++ destroy a
  | left o _ => destroy o
  | right _ o => destroy o

/-- `for (unsigned i=0;i<length;++i) { data_[i].~T(); }` -/
def destroyElems (elem : Ty) (data : Ptr) : Nat → List Obj → List Event
  | _, [] => []
  | i, o :: os =>
    (if elem.hasDestructor then [Event.destroyed data i] else []) ++ destroy o
      ++ destroyElems elem data (i + 1) os

end

/-- What the object is after something was move constructed or assigned from it. The
length of a map is reset, those of the other two are not. -/
def moved : Obj → Obj
  | storage t => storage t
  | scalar => scalar
  | string _ length => string .null length
  | container .vector elem _ length _ => container .vector elem .null length []
  | container .unorderedMap elem _ _ _ => container .unorderedMap elem .null 0 []
  | pair a b => pair a.moved b.moved
  | left o second => left o.moved second
  | right first o => right first o.moved

/-- `leak()`, of the classes that have it. -/
def leak : Obj → Option Obj
  | string _ length => some (string .null length)
  | container c elem _ length _ => some (container c elem .null length [])
  | _ => none

/-- What `a = std::move(b)` does to what `a` was, before it takes the members of `b`. -/
def tornDown : Obj → Obj → List Event
  | string data _, _ => if data ≠ .null ∧ data ≠ .empty then [Event.free data] else []
  -- the elements are not destroyed
  | container .vector _ data length _, _ =>
    if data ≠ .null ∧ length > 0 then [Event.free data] else []
  | container .unorderedMap elem data length elems, _ =>
    if data ≠ .null ∧ length > 0 then destroyElems elem data 0 elems ++ [Event.free data] else []
  | pair a b, pair a' b' => tornDown a a' ++ tornDown b b'
  | left a _, left b _ => tornDown a b
  | right _ a, right _ b => tornDown a b
  -- a sum that changes its alternative destroys the old one
  | left a _, right _ _ => destroy a
  | right _ a, left _ _ => destroy a
  | _, _ => []

/-- The elements that an assignment leaves without a destructor call. -/
def skips : Obj → Obj → Bool
  | container .vector elem data length _, _ =>
    data ≠ .null && length > 0 && elem.hasDestructor
  | pair a b, pair a' b' => skips a a' || skips b b'
  | left a _, left b _ => skips a b
  | right _ a, right _ b => skips a b
  | _, _ => false

/-- Destructors and assignments may look at the whole object. -/
def built : Obj → Bool
  | storage _ => false
  | scalar => true
  | string _ _ => true
  | container _ _ _ _ elems => builtAll elems
  | pair a b => a.built && b.built
  | left o _ => o.built
  | right _ o => o.built
where
  builtAll : List Obj → Bool
    | [] => true
    | o :: os => o.built && builtAll os

/-- A constructed object: elements of its buffers may still be missing. -/
def constructed : Obj → Bool
  | storage _ => false
  | scalar => true
  | string _ _ => true
  | container _ _ _ _ _ => true
  | pair a b => a.constructed && b.constructed
  | left o _ => o.constructed
  | right _ o => o.constructed

/-! ### Element access -/

def child : Obj → Nat → Option Obj
  | container _ _ _ _ elems, i => elems[i]?
  | pair a _, 0 => some a
  | pair _ b, 1 => some b
  | left o _, 0 => some o
  | right _ o, 0 => some o
  | _, _ => none

def setChild : Obj → Nat → Obj → Obj
  | container c elem data length elems, i, x => container c elem data length (elems.set i x)
  | pair _ b, 0, x => pair x b
  | pair a _, 1, x => pair a x
  | left _ second, 0, x => left x second
  | right first _, 0, x => right first x
  | o, _, _ => o

/-- The object that a chain of element and member accesses refers to. -/
def get (o : Obj) : List Nat → Option Obj
  | [] => some o
  | i :: p => (o.child i).bind fun c => c.get p

def set (o : Obj) : List Nat → Obj → Obj
  | [], x => x
  | i :: p, x =>
    match o.child i with
    | some c => o.setChild i (c.set p x)
    | none => o

/-! ### Who owns what -/

/-- The elements that have been constructed, counted from `i`. -/
def initialised : Nat → List Obj → List Nat
  | _, [] => []
  | i, o :: os => (if o.isStorage then [] else [i]) ++ initialised (i + 1) os

mutual

/-- The buffers the object owns, each with the elements to be destroyed in it. -/
def accounts : Obj → List (Nat × List Nat)
  | storage _ => []
  | scalar => []
  | string data _ => data.ids.map fun id => (id, [])
  | container _ elem data _ elems =>
    (data.ids.map fun id => (id, if elem.hasDestructor then initialised 0 elems else []))
      ++ accountsAll elems
  | pair a b => accounts a ++ accounts b
  | left o _ => accounts o
  | right _ o => accounts o

def accountsAll : List Obj → List (Nat × List Nat)
  | [] => []
  | o :: os => accounts o ++ accountsAll os

end

/-- `data_` and `length` agree with the elements there are. -/
def Agrees (data : Ptr) (length count : Nat) : Prop :=
  match data with
  | .null => count = 0
  | .empty => length = 0 ∧ count = 0
  | .heap _ => 0 < length ∧ count = length

mutual

def Ok : Obj → Prop
  | storage _ => True
  | scalar => True
  | string _ _ => True
  | container _ elem data length elems => Agrees data length elems.length ∧ OkAll elem elems
  | pair a b => Ok a ∧ Ok b
  | left o _ => Ok o
  | right _ o => Ok o

def OkAll (elem : Ty) : List Obj → Prop
  | [] => True
  | o :: os => o.type = elem ∧ Ok o ∧ OkAll elem os

end

/-! ## Trees -/

/-- An object is below another by the two halves of a pair and the active member of a sum; the
elements of a container are a list of their own. -/
@[elab_as_elim]
theorem ind {motive : Obj → Prop} (storage : ∀ t, motive (.storage t)) (scalar : motive .scalar)
    (string : ∀ data length, motive (.string data length))
    (vector : ∀ elem data length elems, motive (.container .vector elem data length elems))
    (unorderedMap : ∀ elem data length elems, motive (.container .unorderedMap elem data length elems))
    (pair : ∀ a b, motive a → motive b → motive (.pair a b)) (left : ∀ o second, motive o → motive (.left o second))
    (right : ∀ first o, motive o → motive (.right first o)) (o : Obj) : motive o :=
  Obj.moved.induct motive storage scalar string vector unorderedMap pair left right o

theorem okAll_iff {elem : Ty} {os : List Obj} :
    OkAll elem os ↔ ∀ o ∈ os, o.type = elem ∧ o.Ok := by
  induction os with
  | nil => simp [OkAll]
  | cons o os ih =>
    rw [OkAll, ih, List.forall_mem_cons, and_assoc]

theorem not_isStorage_of_built {o : Obj} (h : o.built = true) : o.isStorage = false := by
  cases o with
  | storage t => simp [built] at h
  | _ => rfl

theorem not_isStorage_of_constructed {o : Obj} (h : o.constructed = true) :
    o.isStorage = false := by
  cases o with
  | storage t => simp [constructed] at h
  | _ => rfl

@[simp] theorem type_moved (o : Obj) : o.moved.type = o.type := by
  induction o using Obj.ind with
  | storage | scalar | string | vector | unorderedMap => rfl
  | pair a b iha ihb => rw [moved, type, iha, ihb, type]
  | left o second ih => rw [moved, type, ih, type]
  | right first o ih => rw [moved, type, ih, type]

@[simp] theorem isStorage_moved (o : Obj) : o.moved.isStorage = o.isStorage := by
  cases o with
  | container c elem data length elems => cases c <;> rfl
  | _ => rfl

theorem ok_moved {o : Obj} (h : o.Ok) : o.moved.Ok := by
  induction o using Obj.ind with
  | storage | scalar | string => trivial
  | vector | unorderedMap => exact ⟨rfl, trivial⟩
  | pair a b iha ihb => exact ⟨iha h.1, ihb h.2⟩
  | left o second ih => exact ih h
  | right first o ih => exact ih h

/-- An object that was moved from owns nothing. -/
@[simp] theorem accounts_moved (o : Obj) : o.moved.accounts = [] := by
  induction o using Obj.ind with
  | storage | scalar | string | vector | unorderedMap => rfl
  | pair a b iha ihb => rw [moved, accounts, iha, ihb, List.append_nil]
  | left o second ih => rw [moved, accounts, ih]
  | right first o ih => rw [moved, accounts, ih]

theorem leak_inv {o o' : Obj} (h : o.leak = some o') :
    o'.Ok ∧ o'.type = o.type ∧ o'.isStorage = o.isStorage ∧ o'.accounts = [] := by
  cases o with
  | string data length =>
    cases h
    exact ⟨trivial, rfl, rfl, rfl⟩
  | container c elem data length elems =>
    cases h
    exact ⟨⟨rfl, trivial⟩, rfl, rfl, rfl⟩
  | _ => cases h

/-! ### One child -/

section

variable {o a x : Obj} {i j : Nat}

/-- What the accesses of one step are. -/
theorem child_cases (h : o.child i = some a) :
    (∃ c elem data length elems, o = .container c elem data length elems ∧ elems[i]? = some a) ∨
    (∃ b, o = .pair a b ∧ i = 0) ∨ (∃ b, o = .pair b a ∧ i = 1) ∨
    (∃ t, o = .left a t ∧ i = 0) ∨ (∃ t, o = .right t a ∧ i = 0) := by
  unfold child at h
  split at h
  · exact .inl ⟨_, _, _, _, _, rfl, h⟩
  · cases h
    exact .inr (.inl ⟨_, rfl, rfl⟩)
  · cases h
    exact .inr (.inr (.inl ⟨_, rfl, rfl⟩))
  · cases h
    exact .inr (.inr (.inr (.inl ⟨_, rfl, rfl⟩)))
  · cases h
    exact .inr (.inr (.inr (.inr ⟨_, rfl, rfl⟩)))
  · cases h

theorem child_setChild (h : o.child i = some a) : (o.setChild i x).child i = some x := by
  rcases child_cases h with ⟨c, elem, data, length, elems, rfl, hi⟩ | ⟨b, rfl, rfl⟩ | ⟨b, rfl, rfl⟩ |
    ⟨t, rfl, rfl⟩ | ⟨t, rfl, rfl⟩
  · obtain ⟨hlt, -⟩ := List.getElem?_eq_some_iff.mp hi
    exact List.getElem?_set_self hlt
  all_goals rfl

theorem child_setChild_of_ne (h : o.child i = some a) (hij : i ≠ j) :
    (o.setChild i x).child j = o.child j := by
  rcases child_cases h with ⟨c, elem, data, length, elems, rfl, hi⟩ | ⟨b, rfl, rfl⟩ | ⟨b, rfl, rfl⟩ |
    ⟨t, rfl, rfl⟩ | ⟨t, rfl, rfl⟩
  · exact List.getElem?_set_ne hij
  · rcases j with - | - | j
    · exact absurd rfl hij
    · rfl
    · rfl
  · rcases j with - | - | j
    · rfl
    · exact absurd rfl hij
    · rfl
  · rcases j with - | j
    · exact absurd rfl hij
    · rfl
  · rcases j with - | j
    · exact absurd rfl hij
    · rfl

theorem ok_child (ho : o.Ok) (h : o.child i = some a) : a.Ok := by
  rcases child_cases h with ⟨c, elem, data, length, elems, rfl, hi⟩ | ⟨b, rfl, rfl⟩ | ⟨b, rfl, rfl⟩ |
    ⟨t, rfl, rfl⟩ | ⟨t, rfl, rfl⟩
  · exact (okAll_iff.mp ho.2 a (List.mem_of_getElem? hi)).2
  · exact ho.1
  · exact ho.2
  · exact ho
  · exact ho

/-- The type of a part is a part of the type. -/
theorem size_child (ho : o.Ok) (h : o.child i = some a) : a.type.size < o.type.size := by
  rcases child_cases h with ⟨c, elem, data, length, elems, rfl, hi⟩ | ⟨b, rfl, rfl⟩ | ⟨b, rfl, rfl⟩ |
    ⟨t, rfl, rfl⟩ | ⟨t, rfl, rfl⟩
  · rw [(okAll_iff.mp ho.2 a (List.mem_of_getElem? hi)).1]
    exact Nat.lt_succ_self _
  all_goals
    simp only [type, Ty.size]
    omega

theorem type_setChild (h : o.child i = some a) (hx : x.type = a.type) :
    (o.setChild i x).type = o.type := by
  rcases child_cases h with ⟨c, elem, data, length, elems, rfl, hi⟩ | ⟨b, rfl, rfl⟩ | ⟨b, rfl, rfl⟩ |
    ⟨t, rfl, rfl⟩ | ⟨t, rfl, rfl⟩
  · rfl
  all_goals simp only [setChild, type, hx]

theorem ok_setChild (ho : o.Ok) (h : o.child i = some a) (hx : x.type = a.type) (hxo : x.Ok) :
    (o.setChild i x).Ok := by
  rcases child_cases h with ⟨c, elem, data, length, elems, rfl, hi⟩ | ⟨b, rfl, rfl⟩ | ⟨b, rfl, rfl⟩ |
    ⟨t, rfl, rfl⟩ | ⟨t, rfl, rfl⟩
  · obtain ⟨hagrees, hall⟩ := ho
    rw [okAll_iff] at hall
    refine ⟨by rwa [List.length_set], okAll_iff.mpr fun y hy => ?_⟩
    rcases List.mem_or_eq_of_mem_set hy with hy | rfl
    · exact hall y hy
    · exact ⟨hx.trans (hall a (List.mem_of_getElem? hi)).1, hxo⟩
  · exact ⟨hxo, ho.2⟩
  · exact ⟨ho.1, hxo⟩
  · exact hxo
  · exact hxo

theorem isStorage_setChild (h : o.child i = some a) :
    (o.setChild i x).isStorage = o.isStorage := by
  rcases child_cases h with ⟨c, elem, data, length, elems, rfl, hi⟩ | ⟨b, rfl, rfl⟩ | ⟨b, rfl, rfl⟩ |
    ⟨t, rfl, rfl⟩ | ⟨t, rfl, rfl⟩ <;> rfl

end

/-! ### Lists of elements -/

theorem accountsAll_set {os : List Obj} {i : Nat} {a : Obj} (h : os[i]? = some a) :
    ∃ rest, (accountsAll os).Perm (a.accounts ++ rest) ∧
      ∀ x, (accountsAll (os.set i x)).Perm (x.accounts ++ rest) := by
  induction os generalizing i with
  | nil => cases h
  | cons o os ih =>
    cases i with
    | zero =>
      cases h
      exact ⟨accountsAll os, .refl _, fun x => .refl _⟩
    | succ i =>
      obtain ⟨rest, hp, hset⟩ := ih h
      have hmove : ∀ ys zs : List (Nat × List Nat), zs.Perm (ys ++ rest) →
          (o.accounts ++ zs).Perm (ys ++ (o.accounts ++ rest)) := fun ys zs hzs =>
        (hzs.append_left _).trans (List.perm_append_comm_assoc ..)
      exact ⟨o.accounts ++ rest, hmove _ _ hp, fun x => hmove _ _ (hset x)⟩

theorem initialised_set {os : List Obj} {i : Nat} {a x : Obj} (n : Nat) (h : os[i]? = some a)
    (hx : x.isStorage = a.isStorage) : initialised n (os.set i x) = initialised n os := by
  induction os generalizing i n with
  | nil => cases h
  | cons o os ih =>
    cases i with
    | zero =>
      cases h
      simp only [List.set_cons_zero, initialised, hx]
    | succ i => rw [List.set_cons_succ, initialised, ih _ h, initialised]

/-- Another element is constructed. -/
theorem initialised_construct {os : List Obj} {i : Nat} {a x : Obj} (n : Nat)
    (h : os[i]? = some a) (ha : a.isStorage = true) (hx : x.isStorage = false) :
    (initialised n (os.set i x)).Perm ((n + i) :: initialised n os) := by
  induction os generalizing i n with
  | nil => cases h
  | cons o os ih =>
    cases i with
    | zero =>
      cases h
      simp only [List.set_cons_zero, initialised, hx, ha, Nat.add_zero]
      exact .refl _
    | succ i =>
      rw [List.set_cons_succ, initialised, initialised]
      refine ((ih (n + 1) h).append_left _).trans ?_
      rw [show n + 1 + i = n + (i + 1) by omega]
      exact List.perm_middle

theorem initialised_of_built {os : List Obj} (n : Nat) (h : built.builtAll os = true) :
    initialised n os = List.range' n os.length := by
  induction os generalizing n with
  | nil => rfl
  | cons o os ih =>
    rw [built.builtAll, Bool.and_eq_true] at h
    rw [initialised, not_isStorage_of_built h.1, ih _ h.2]
    rfl

theorem initialised_replicate (n k : Nat) (t : Ty) :
    initialised n (List.replicate k (storage t)) = [] := by
  induction k generalizing n with
  | zero => rfl
  | succ k ih => exact ih (n + 1)

theorem accountsAll_replicate (k : Nat) (t : Ty) :
    accountsAll (List.replicate k (storage t)) = [] := by
  induction k with
  | zero => rfl
  | succ k ih => exact ih

/-! ### Places -/

/-- The accounts of an object are those of one child and others, which stay when the
child is replaced. -/
theorem accounts_setChild {o a : Obj} {i : Nat} (h : o.child i = some a) :
    ∃ rest, o.accounts.Perm (a.accounts ++ rest) ∧ ∀ x : Obj, x.isStorage = a.isStorage →
      (o.setChild i x).accounts.Perm (x.accounts ++ rest) := by
  rcases child_cases h with ⟨c, elem, data, length, elems, rfl, hi⟩ | ⟨b, rfl, rfl⟩ | ⟨b, rfl, rfl⟩ |
    ⟨t, rfl, rfl⟩ | ⟨t, rfl, rfl⟩
  · obtain ⟨rest, hp, hset⟩ := accountsAll_set hi
    refine ⟨data.ids.map (fun id => (id, if elem.hasDestructor then initialised 0 elems else []))
      ++ rest, ?_, fun x hx => ?_⟩
    · exact (hp.append_left _).trans (List.perm_append_comm_assoc ..)
    · rw [setChild, accounts, initialised_set 0 hi hx]
      exact ((hset x).append_left _).trans (List.perm_append_comm_assoc ..)
  · exact ⟨b.accounts, .refl _, fun x _ => .refl _⟩
  · exact ⟨b.accounts, List.perm_append_comm, fun x _ => List.perm_append_comm⟩
  · exact ⟨[], by simp [accounts], fun x _ => by simp [setChild, accounts]⟩
  · exact ⟨[], by simp [accounts], fun x _ => by simp [setChild, accounts]⟩

section

variable {o a b x : Obj} {p q : List Nat}

theorem get_cons_inv {i : Nat} (h : o.get (i :: p) = some a) :
    ∃ c, o.child i = some c ∧ c.get p = some a := by
  rw [get] at h
  exact Option.bind_eq_some_iff.mp h

theorem set_cons {i : Nat} {c : Obj} (h : o.child i = some c) :
    o.set (i :: p) x = o.setChild i (c.set p x) := by
  rw [set, h]

theorem ok_get (ho : o.Ok) (h : o.get p = some a) : a.Ok := by
  induction p generalizing o with
  | nil =>
    cases h
    exact ho
  | cons i p ih =>
    obtain ⟨c, hc, h⟩ := get_cons_inv h
    exact ih (ok_child ho hc) h

theorem size_get (ho : o.Ok) (h : o.get p = some a) : a.type.size ≤ o.type.size := by
  induction p generalizing o with
  | nil =>
    cases h
    exact Nat.le_refl _
  | cons i p ih =>
    obtain ⟨c, hc, h⟩ := get_cons_inv h
    exact Nat.le_trans (ih (ok_child ho hc) h) (Nat.le_of_lt (size_child ho hc))

theorem type_set (h : o.get p = some a) (hx : x.type = a.type) : (o.set p x).type = o.type := by
  induction p generalizing o with
  | nil =>
    cases h
    exact hx
  | cons i p ih =>
    obtain ⟨c, hc, h⟩ := get_cons_inv h
    rw [set_cons hc]
    exact type_setChild hc (ih h)

theorem isStorage_set (h : o.get p = some a) (hx : x.isStorage = a.isStorage) :
    (o.set p x).isStorage = o.isStorage := by
  cases p with
  | nil =>
    cases h
    exact hx
  | cons i p =>
    obtain ⟨c, hc, h⟩ := get_cons_inv h
    rw [set_cons hc]
    exact isStorage_setChild hc

theorem ok_set (ho : o.Ok) (h : o.get p = some a) (hx : x.type = a.type) (hxo : x.Ok) :
    (o.set p x).Ok := by
  induction p generalizing o with
  | nil => exact hxo
  | cons i p ih =>
    obtain ⟨c, hc, h⟩ := get_cons_inv h
    rw [set_cons hc]
    exact ok_setChild ho hc (type_set h hx) (ih (ok_child ho hc) h)

theorem accounts_set (h : o.get p = some a) :
    ∃ rest, o.accounts.Perm (a.accounts ++ rest) ∧ ∀ x : Obj, x.isStorage = a.isStorage →
      (o.set p x).accounts.Perm (x.accounts ++ rest) := by
  induction p generalizing o with
  | nil =>
    cases h
    exact ⟨[], by simp, fun x _ => by simp [set]⟩
  | cons i p ih =>
    obtain ⟨c, hc, h⟩ := get_cons_inv h
    obtain ⟨inner, hp, hset⟩ := ih h
    obtain ⟨outer, hp', hset'⟩ := accounts_setChild hc
    refine ⟨inner ++ outer, ?_, fun x hx => ?_⟩
    · rw [← List.append_assoc]
      exact hp'.trans (hp.append_right _)
    · rw [set_cons hc, ← List.append_assoc]
      exact (hset' _ (isStorage_set h hx)).trans ((hset x hx).append_right _)

theorem get_set (h : o.get p = some a) : (o.set p x).get p = some x := by
  induction p generalizing o with
  | nil => rfl
  | cons i p ih =>
    obtain ⟨c, hc, h⟩ := get_cons_inv h
    rw [set_cons hc, get, child_setChild hc]
    exact ih h

/-- Of two objects of one type neither is a part of the other. -/
theorem get_set_of_ne (ho : o.Ok) (hp : o.get p = some a) (hq : o.get q = some b)
    (hab : a.type = b.type) (hpq : p ≠ q) : (o.set p x).get q = some b := by
  induction p generalizing o q with
  | nil =>
    cases q with
    | nil => exact absurd rfl hpq
    | cons j q =>
      cases hp
      obtain ⟨c, hc, hb⟩ := get_cons_inv hq
      have hlt := Nat.lt_of_le_of_lt (size_get (ok_child ho hc) hb) (size_child ho hc)
      exact absurd (hab ▸ hlt) (Nat.lt_irrefl _)
  | cons i p ih =>
    obtain ⟨c, hc, ha⟩ := get_cons_inv hp
    cases q with
    | nil =>
      cases hq
      have hlt := Nat.lt_of_le_of_lt (size_get (ok_child ho hc) ha) (size_child ho hc)
      exact absurd (hab ▸ hlt) (Nat.lt_irrefl _)
    | cons j q =>
      rw [set_cons hc]
      by_cases hij : i = j
      · subst hij
        obtain ⟨c', hc', hq⟩ := get_cons_inv hq
        cases hc.symm.trans hc'
        rw [get, child_setChild hc]
        exact ih (ok_child ho hc) ha hq fun heq => hpq (heq ▸ rfl)
      · rw [get, child_setChild_of_ne hc hij]
        exact hq

end

end Obj

/-! ## The life of a buffer -/

def Event.about : Event → Option Nat
  | malloc id => some id
  | constructed (.heap id) _ => some id
  | destroyed (.heap id) _ => some id
  | free (.heap id) => some id
  | leaked id => some id
  | _ => none

/-- The elements `is` have been constructed in the buffer. -/
def Held (id : Nat) (is : List Nat) (h : List Event) : Prop :=
  ∃ cs, h = Event.malloc id :: cs ∧ cs.Perm (is.map (Event.constructed (.heap id)))

/-- Each of the `n` elements constructed in the buffer was destroyed, then it was freed. -/
def FreedOnce (id : Nat) (h : List Event) : Prop :=
  ∃ cs n, h = Event.malloc id :: cs ++ ((List.range n).map (Event.destroyed (.heap id)) ++ [Event.free (.heap id)])
    ∧ cs.Perm ((List.range n).map (Event.constructed (.heap id)))

def Leaked (id : Nat) (h : List Event) : Prop :=
  ∃ (cs : List Event) (is : List Nat), h = Event.malloc id :: cs ++ [Event.leaked id] ∧
    cs.Perm (is.map (Event.constructed (.heap id)))

def buffers : Bookkeeping Event (List Nat) where
  about := Event.about
  held := Held
  settled id h := FreedOnce id h ∨ Leaked id h

/-- The events free nothing but what `malloc` returned. -/
def FreesHeap (es : List Event) : Prop := ∀ data, .free data ∈ es → ∃ id, data = .heap id

theorem FreesHeap.append {es es' : List Event} (h : FreesHeap es) (h' : FreesHeap es') :
    FreesHeap (es ++ es') := fun data hd => (List.mem_append.mp hd).elim (h data) (h' data)

theorem FreesHeap.nil : FreesHeap [] := nofun

/-- Freeing a buffer whose elements have been destroyed. -/
theorem settled_free {id n : Nat} {h es : List Event}
    (hes : es = (List.range n).map (Event.destroyed (.heap id)) ++ [Event.free (.heap id)])
    (hh : Held id (List.range n) h) : buffers.settled id (h ++ es) := by
  obtain ⟨cs, rfl, hcs⟩ := hh
  subst hes
  exact .inl ⟨cs, n, rfl, hcs⟩

/-! ### Destructors -/

namespace Obj

/-- What has no destructor owns nothing. -/
theorem accounts_of_trivial {o : Obj} (ho : o.Ok) (h : o.type.hasDestructor = false) :
    o.accounts = [] := by
  induction o using Obj.ind with
  | storage | scalar => rfl
  | string | vector | unorderedMap => cases h
  | pair a b iha ihb =>
    obtain ⟨ha, hb⟩ := Bool.or_eq_false_iff.mp h
    rw [accounts, iha ho.1 ha, ihb ho.2 hb, List.append_nil]
  | left o second ih => exact ih ho (Bool.or_eq_false_iff.mp h).1
  | right first o ih => exact ih ho (Bool.or_eq_false_iff.mp h).2

theorem accountsAll_of_trivial {elem : Ty} {os : List Obj} (ho : OkAll elem os)
    (h : elem.hasDestructor = false) : accountsAll os = [] := by
  induction os with
  | nil => rfl
  | cons o os ih =>
    obtain ⟨ht, hok, hall⟩ := ho
    rw [accountsAll, accounts_of_trivial hok (ht ▸ h), ih hall, List.append_nil]

/-- The marks that the destruction of the elements leaves on the buffer. -/
def marks (elem : Ty) (id n k : Nat) : List Event :=
  if elem.hasDestructor then (List.range' n k).map (Event.destroyed (.heap id)) else []

theorem about_mark (id i : Nat) :
    ∀ e ∈ [Event.destroyed (.heap id) i], buffers.about e = some id := by
  intro e he
  cases List.mem_singleton.mp he
  rfl

theorem history_mark (elem : Ty) (id i : Nat) :
    buffers.history (if elem.hasDestructor then [Event.destroyed (.heap id) i] else []) id
      = if elem.hasDestructor then [Event.destroyed (.heap id) i] else [] := by
  split
  · exact Bookkeeping.history_of_about (about_mark id i)
  · rfl

theorem history_mark_of_ne {elem : Ty} {id k i : Nat} (h : k ≠ id) :
    buffers.history (if elem.hasDestructor then [Event.destroyed (.heap id) i] else []) k = [] := by
  split
  · exact Bookkeeping.history_of_ne (about_mark id i) h
  · rfl

/-- To the other buffers the destruction of the elements is that of the objects. -/
theorem history_destroyElems_of_ne {elem : Ty} {os : List Obj} {id k : Nat} (n : Nat) (h : k ≠ id) :
    buffers.history (destroyElems elem (.heap id) n os) k
      = buffers.history (os.flatMap destroy) k := by
  induction os generalizing n with
  | nil => rfl
  | cons o os ih =>
    rw [destroyElems, List.flatMap_cons, Bookkeeping.history_append, Bookkeeping.history_append,
      Bookkeeping.history_append, history_mark_of_ne h, List.nil_append, ih]

theorem history_destroyElems {elem : Ty} {os : List Obj} {id : Nat} (n : Nat)
    (h : buffers.history (os.flatMap destroy) id = []) :
    buffers.history (destroyElems elem (.heap id) n os) id = marks elem id n os.length := by
  induction os generalizing n with
  | nil => simp [destroyElems, marks]
  | cons o os ih =>
    rw [List.flatMap_cons, Bookkeeping.history_append, List.append_eq_nil_iff] at h
    rw [destroyElems, Bookkeeping.history_append, Bookkeeping.history_append, history_mark, h.1,
      List.append_nil, ih _ h.2]
    unfold marks
    split
    · rfl
    · rfl

theorem about_free {id : Nat} : ∀ e ∈ [Event.free (.heap id)], buffers.about e = some id := by
  intro e he
  cases List.mem_singleton.mp he
  rfl

/-- Destroying the elements and freeing the buffer settles it and what the elements own. -/
theorem closes_buffer {elem : Ty} {os : List Obj} {id : Nat} (hb : built.builtAll os = true)
    (hc : buffers.Closes (os.flatMap destroy) (accountsAll os))
    (hid : id ∉ (accountsAll os).map Prod.fst) :
    buffers.Closes (destroyElems elem (.heap id) 0 os ++ [Event.free (.heap id)])
      ((id, if elem.hasDestructor then initialised 0 os else []) :: accountsAll os) where
  settled a ha h hh := by
    rw [Bookkeeping.history_append]
    rcases List.mem_cons.mp ha with rfl | ha
    · rw [Bookkeeping.history_of_about about_free, history_destroyElems 0 (hc.others id hid)]
      by_cases he : elem.hasDestructor
      · refine settled_free (n := os.length) ?_ ?_
        · rw [marks, if_pos he, List.range_eq_range']
        · rw [List.range_eq_range', ← initialised_of_built 0 hb]
          rw [if_pos he] at hh
          exact hh
      · refine settled_free (n := 0) ?_ ?_
        · rw [marks, if_neg he]
          rfl
        · rw [if_neg he] at hh
          exact hh
    · have hne : a.1 ≠ id := fun heq => hid (heq ▸ List.mem_map_of_mem ha)
      rw [Bookkeeping.history_of_ne about_free hne, List.append_nil, history_destroyElems_of_ne 0 hne]
      exact hc.settled a ha h hh
  others k hk := by
    rw [List.map_cons, List.mem_cons, not_or] at hk
    rw [Bookkeeping.history_append, history_destroyElems_of_ne 0 hk.1, hc.others k hk.2,
      List.nil_append]
    exact Bookkeeping.history_of_ne about_free hk.1

/-- A buffer with no elements to destroy. -/
theorem closes_bare (id : Nat) : buffers.Closes [Event.free (.heap id)] [(id, [])] where
  settled a ha h hh := by
    cases List.mem_singleton.mp ha
    exact settled_free (n := 0) (Bookkeeping.history_of_about about_free) hh
  others k hk := Bookkeeping.history_of_ne about_free (by simpa using hk)

mutual

/-- A destructor settles everything that the object owns. -/
theorem destroy_closes : ∀ o : Obj, o.Ok → o.built = true → (o.accounts.map Prod.fst).Nodup →
    buffers.Closes o.destroy o.accounts
  | storage _, _, hb, _ => by cases hb
  | scalar, _, _, _ => .nil
  | string .null _, _, _, _ => .nil
  | string .empty _, _, _, _ => .nil
  | string (.heap id) _, _, _, _ => closes_bare id
  | container _ elem data length elems, ho, hb, hnd => by
    obtain ⟨hagrees, hall⟩ := ho
    cases data with
    | null =>
      cases List.eq_nil_of_length_eq_zero hagrees
      exact .nil
    | empty =>
      obtain ⟨rfl, h⟩ := hagrees
      cases List.eq_nil_of_length_eq_zero h
      exact .nil
    | heap id =>
      obtain ⟨hid, hnd⟩ := List.nodup_cons.mp hnd
      rw [destroy, if_pos ⟨nofun, hagrees.1⟩]
      exact closes_buffer hb (destroyAll_closes elem elems hall hb hnd) hid
  | pair a b, ho, hb, hnd => by
    obtain ⟨hba, hbb⟩ := Bool.and_eq_true_iff.mp hb
    rw [accounts, List.map_append] at hnd
    obtain ⟨hna, hnb, -⟩ := List.nodup_append.mp hnd
    have hperm : (b.accounts ++ a.accounts).Perm (a.accounts ++ b.accounts) := List.perm_append_comm
    refine (Bookkeeping.Closes.append (destroy_closes b ho.2 hbb hnb)
      (destroy_closes a ho.1 hba hna) ?_).perm hperm
    rw [(hperm.map _).nodup_iff, List.map_append]
    exact hnd
  | left o _, ho, hb, hnd => destroy_closes o ho hb hnd
  | right _ o, ho, hb, hnd => destroy_closes o ho hb hnd

theorem destroyAll_closes (elem : Ty) : ∀ os : List Obj, OkAll elem os → built.builtAll os = true →
    ((accountsAll os).map Prod.fst).Nodup → buffers.Closes (os.flatMap destroy) (accountsAll os)
  | [], _, _, _ => .nil
  | o :: os, ho, hb, hnd => by
    obtain ⟨hbo, hbs⟩ := Bool.and_eq_true_iff.mp hb
    obtain ⟨hno, hns, -⟩ := List.nodup_append.mp (List.map_append ▸ hnd)
    exact .append (destroy_closes o ho.2.1 hbo hno) (destroyAll_closes elem os ho.2.2 hbs hns) hnd

end

/-- So does an assignment that skips no element. -/
theorem tornDown_closes (a b : Obj) (ho : a.Ok) (hb : a.built = true)
    (hnd : (a.accounts.map Prod.fst).Nodup) (htype : a.type = b.type)
    (hc : b.constructed = true) (hs : a.skips b = false) :
    buffers.Closes (a.tornDown b) a.accounts := by
  induction a using Obj.ind generalizing b with
  | storage => cases hb
  | scalar => exact .nil
  | string data length => exact destroy_closes _ ho hb hnd
  | vector elem data length elems =>
    obtain ⟨hagrees, hall⟩ := ho
    cases data with
    | null =>
      cases List.eq_nil_of_length_eq_zero hagrees
      exact .nil
    | empty =>
      obtain ⟨rfl, h⟩ := hagrees
      cases List.eq_nil_of_length_eq_zero h
      exact .nil
    | heap id =>
      obtain ⟨hlength, -⟩ := hagrees
      have he : elem.hasDestructor = false := by simpa [skips, hlength] using hs
      rw [tornDown, if_pos ⟨nofun, hlength⟩, accounts, accountsAll_of_trivial hall he, he]
      exact closes_bare id
  | unorderedMap elem data length elems => exact destroy_closes _ ho hb hnd
  | pair a a' iha iha' =>
    cases b with
    | pair b b' =>
      obtain ⟨hba, hba'⟩ := Bool.and_eq_true_iff.mp hb
      obtain ⟨hsa, hsa'⟩ := Bool.or_eq_false_iff.mp hs
      obtain ⟨hna, hna', -⟩ := List.nodup_append.mp (List.map_append ▸ hnd)
      injection htype with hta hta'
      obtain ⟨hc, hc'⟩ := Bool.and_eq_true_iff.mp hc
      exact .append (iha b ho.1 hba hna hta hc hsa) (iha' b' ho.2 hba' hna' hta' hc' hsa') hnd
    | storage t => cases hc
    | _ => cases htype
  | left a second ih =>
    cases b with
    | left b _ =>
      injection htype with hta
      exact ih b ho hb hnd hta hc hs
    | right _ b => exact destroy_closes _ ho hb hnd
    | storage t => cases hc
    | _ => cases htype
  | right first a ih =>
    cases b with
    | right _ b =>
      injection htype with _ hta
      exact ih b ho hb hnd hta hc hs
    | left b _ => exact destroy_closes _ ho hb hnd
    | storage t => cases hc
    | _ => cases htype

/-- What is leaked is the caller's. -/
theorem leaked_closes {accounts : List (Nat × List Nat)} (hnd : (accounts.map Prod.fst).Nodup) :
    buffers.Closes (accounts.map fun a => Event.leaked a.1) accounts := by
  induction accounts with
  | nil => exact .nil
  | cons a accounts ih =>
    have habout : ∀ e ∈ [Event.leaked a.1], buffers.about e = some a.1 := by
      intro e he
      cases List.mem_singleton.mp he
      rfl
    have hone : buffers.Closes [Event.leaked a.1] [a] :=
      { settled := by
          intro a' ha h hh
          cases List.mem_singleton.mp ha
          obtain ⟨cs, rfl, hcs⟩ := hh
          rw [Bookkeeping.history_of_about habout]
          exact .inr ⟨cs, _, rfl, hcs⟩
        others := fun k hk => Bookkeeping.history_of_ne habout (by simpa using hk) }
    exact .append hone (ih (List.nodup_cons.mp hnd).2) hnd

/-! ### Only buffers are freed -/

theorem freesHeap_data {data : Ptr} {length count : Nat} (h : Agrees data length count)
    (hd : data ≠ .null ∧ length > 0) : FreesHeap [Event.free data] := by
  rintro data' hm
  cases List.mem_singleton.mp hm
  cases data with
  | null => exact absurd rfl hd.1
  | empty => exact absurd h.1 (Nat.ne_of_gt hd.2)
  | heap id => exact ⟨id, rfl⟩

theorem freesHeap_string {data : Ptr} (hd : data ≠ .null ∧ data ≠ .empty) :
    FreesHeap [Event.free data] := by
  rintro data' hm
  cases List.mem_singleton.mp hm
  cases data with
  | null => exact absurd rfl hd.1
  | empty => exact absurd rfl hd.2
  | heap id => exact ⟨id, rfl⟩

mutual

theorem freesHeap_destroy : ∀ o : Obj, o.Ok → FreesHeap o.destroy
  | storage _, _ => .nil
  | scalar, _ => .nil
  | string data _, _ => by
    rw [destroy]
    split
    next hd => exact freesHeap_string hd
    next => exact .nil
  | container _ elem data length elems, ho => by
    rw [destroy]
    split
    next hd => exact .append (freesHeap_destroyElems elem data elems ho.2 0) (freesHeap_data ho.1 hd)
    next => exact .nil
  | pair a b, ho => .append (freesHeap_destroy b ho.2) (freesHeap_destroy a ho.1)
  | left o _, ho => freesHeap_destroy o ho
  | right _ o, ho => freesHeap_destroy o ho

theorem freesHeap_destroyElems (elem : Ty) (data : Ptr) :
    ∀ os : List Obj, OkAll elem os → ∀ n, FreesHeap (destroyElems elem data n os)
  | [], _, _ => .nil
  | o :: os, ho, n => by
    have hmark : FreesHeap (if elem.hasDestructor then [Event.destroyed data n] else []) := by
      intro data' hm
      split at hm
      · cases List.mem_singleton.mp hm
      · cases hm
    exact (hmark.append (freesHeap_destroy o ho.2.1)).append
      (freesHeap_destroyElems elem data os ho.2.2 (n + 1))

end

theorem freesHeap_tornDown (a b : Obj) (ho : a.Ok) : FreesHeap (a.tornDown b) := by
  induction a using Obj.ind generalizing b with
  | storage | scalar => exact .nil
  | string data length => exact freesHeap_destroy _ ho
  | vector elem data length elems =>
    rw [tornDown]
    split
    next hd => exact freesHeap_data ho.1 hd
    next => exact .nil
  | unorderedMap elem data length elems => exact freesHeap_destroy _ ho
  | pair a a' iha iha' =>
    cases b with
    | pair b b' => exact (iha b ho.1).append (iha' b' ho.2)
    | _ => exact .nil
  | left a second ih =>
    cases b with
    | left b _ => exact ih b ho
    | right _ b => exact freesHeap_destroy a ho
    | _ => exact .nil
  | right first a ih =>
    cases b with
    | right _ b => exact ih b ho
    | left b _ => exact freesHeap_destroy a ho
    | _ => exact .nil

end Obj

end WitBindgen.Cpp.Containers
