import WitBindgen.Cpp.Containers
import WitBindgen.Library.Runs

/-!
# Programs that use the owning containers

A program has local variables, constructs objects in them, in any order moves objects
between the places that are accessible from them, leaks buffers and ends the life of
variables. As long as it never move assigns to a vector whose elements have destructors
to run, every buffer is freed once with its elements destroyed before, or leaked.
-/

namespace WitBindgen.Cpp.Containers

/-! ## Programs -/

/-- The variables, what happened so far, and how many buffers were allocated. -/
structure State where
  vars : List Obj
  log : List Event
  next : Nat

/-- A variable, and the element and member accesses that follow. -/
structure Place where
  var : Nat
  path : List Nat
  deriving DecidableEq

/-- How an object comes into being. -/
inductive Init where
  | scalar
  | fromView (n : Nat)
  | copy (src : Place)
  | empty (c : Class) (elem : Ty)
  | allocate (c : Class) (elem : Ty) (n : Nat)
  | move (src : Place)
  | pair (first second : Place)
  | left (src : Place) (second : Ty)
  | right (first : Ty) (src : Place)

inductive Op where
  | construct (v : Nat) (init : Init)
  /-- Element `i`, by `initialize` or by `from_view`. -/
  | place (dst : Place) (i : Nat) (init : Init)
  /-- `dst = std::move(src)` -/
  | assign (dst src : Place)
  | leak (p : Place)
  | destroy (v : Nat)

namespace State

variable (s : State)

def get (p : Place) : Option Obj := s.vars[p.var]?.bind fun o => o.get p.path

def set (p : Place) (x : Obj) : State :=
  match s.vars[p.var]? with
  | some o => { s with vars := s.vars.set p.var (o.set p.path x) }
  | none => s

def emit (es : List Event) : State := { s with log := s.log ++ es }

/-- An object that is moved out of its place. -/
def take (src : Place) : Option (Obj × State) :=
  match s.get src with
  | some b => if b.constructed then some (b, s.set src b.moved) else none
  | none => none

/-- `string::from_view` -/
def fromView (n : Nat) : Obj × State :=
  if n = 0 then (.string .empty 0, s)
  else (.string (.heap s.next) n, { s with log := s.log ++ [Event.malloc s.next], next := s.next + 1 })

/-- `vector::allocate` and `unordered_map::allocate` -/
def allocate (c : Class) (elem : Ty) (n : Nat) : Obj × State :=
  if n = 0 then (.container c elem .empty 0 [], s)
  else (.container c elem (.heap s.next) n (List.replicate n (.storage elem)),
    { s with log := s.log ++ [Event.malloc s.next], next := s.next + 1 })

def make : Init → Option (Obj × State)
  | .scalar => some (.scalar, s)
  | .fromView n => some (s.fromView n)
  | .copy src =>
    match s.get src with
    | some (.string _ length) => some (s.fromView length)
    | _ => none
  | .empty c elem => some (.container c elem .empty 0 [], s)
  | .allocate c elem n => some (s.allocate c elem n)
  | .move src => s.take src
  | .pair first second =>
    (s.take first).bind fun (a, s₁) => (s₁.take second).map fun (b, s₂) => (.pair a b, s₂)
  | .left src second => (s.take src).map fun (a, s₁) => (.left a second, s₁)
  | .right first src => (s.take src).map fun (a, s₁) => (.right first a, s₁)

/-- The variable is storage of the type of what is constructed in it. -/
def construct (v : Nat) (init : Init) : Option State :=
  match s.make init with
  | some (o, s₁) =>
    match s₁.vars[v]? with
    | some (.storage t) => if o.type = t then some (s₁.set ⟨v, []⟩ o) else none
    | _ => none
  | none => none

def place (dst : Place) (i : Nat) (b : Obj) : Option State :=
  match s.get dst with
  | some (.container c elem data length elems) =>
    match elems[i]? with
    | some (.storage t) =>
      if b.type = t then
        some ((s.set dst (.container c elem data length (elems.set i b))).emit
          (if elem.hasDestructor then [Event.constructed data i] else []))
      else none
    | _ => none
  | _ => none

def assign (dst src : Place) : Option State :=
  match s.get dst, s.get src with
  | some a, some b =>
    if a.type = b.type ∧ a.built ∧ b.constructed then
      some (((s.set dst b).set src b.moved).emit (a.tornDown b))
    else none
  | _, _ => none

/-- What the object owned is the caller's. -/
def leak (p : Place) : Option State :=
  match s.get p with
  | some o =>
    match o.leak with
    | some o' => some ((s.set p o').emit (o.accounts.map fun a => Event.leaked a.1))
    | none => none
  | none => none

def destroy (v : Nat) : Option State :=
  match s.vars[v]? with
  | some o => if o.built then some ((s.set ⟨v, []⟩ (.storage o.type)).emit o.destroy) else none
  | none => none

def step : Op → Option State
  | .construct v init => s.construct v init
  | .place dst i init => (s.make init).bind fun (b, s₁) => s₁.place dst i b
  | .assign dst src => s.assign dst src
  | .leak p => s.leak p
  | .destroy v => s.destroy v

/-- The step assigns to a vector, and elements in it still have to be destroyed. -/
def skips : Op → Bool
  | .assign dst src =>
    match s.get dst, s.get src with
    | some a, some b => a.skips b
    | _, _ => false
  | _ => false

/-- The buffers that objects own. -/
def owned : List Nat := (Obj.accountsAll s.vars).map Prod.fst

def history (id : Nat) : List Event := buffers.history s.log id

/-- The object at the place owns nothing. -/
def Emptied (p : Place) : Prop := ∃ o, s.get p = some o ∧ o.accounts = []

end State

/-- A program with variables of these types. -/
def program (types : List Ty) : System State Op Unit where
  init s := s = ⟨types.map .storage, [], 0⟩
  allowed _ _ := True
  exec s op :=
    match s.step op with
    | some s' => .ok s'
    | none => .error ()

/-- It never assigns to a vector in which elements still have to be destroyed. -/
def careful (types : List Ty) : System State Op Unit :=
  { program types with allowed := fun s op => s.skips op = false }

/-- What the containers promise of every state of a program. -/
structure Sound (s : State) : Prop where
  /-- A buffer has one owner, and so far elements of it were constructed, nothing else. -/
  once : s.owned.Nodup
  held : ∀ a ∈ Obj.accountsAll s.vars, Held a.1 a.2 (s.history a.1)
  /-- The others were freed once, after the elements, or leaked. -/
  settled : ∀ id, id < s.next → id ∉ s.owned → FreedOnce id (s.history id) ∨ Leaked id (s.history id)
  sentinel : FreesHeap s.log
  moved : ∀ src b s', s.take src = some (b, s') → s'.Emptied src
  assigned : ∀ dst src s', s.assign dst src = some s' → s'.Emptied src

/-! ## States -/

open Obj

/-- The state is right when the objects `extra` that are on their way are counted. -/
structure Inv (s : State) (extra : List (Nat × List Nat)) : Prop where
  ok : ∀ o ∈ s.vars, o.Ok
  books : buffers.Books (extra ++ accountsAll s.vars) s.log s.next
  frees : FreesHeap s.log

namespace State

variable {s s' : State} {p q : Place} {a b x : Obj} {extra : List (Nat × List Nat)}

theorem get_inv (h : s.get p = some a) : ∃ o, s.vars[p.var]? = some o ∧ o.get p.path = some a :=
  Option.bind_eq_some_iff.mp h

theorem set_eq {o : Obj} (h : s.vars[p.var]? = some o) :
    s.set p x = { s with vars := s.vars.set p.var (o.set p.path x) } := by
  rw [set, h]

@[simp] theorem log_set : (s.set p x).log = s.log := by
  unfold set
  split <;> rfl

@[simp] theorem next_set : (s.set p x).next = s.next := by
  unfold set
  split <;> rfl

theorem ok_get (hok : ∀ o ∈ s.vars, o.Ok) (h : s.get p = some a) : a.Ok := by
  obtain ⟨o, ho, h⟩ := get_inv h
  exact Obj.ok_get (hok o (List.mem_of_getElem? ho)) h

theorem ok_set (hok : ∀ o ∈ s.vars, o.Ok) (h : s.get p = some a) (ht : x.type = a.type)
    (hx : x.Ok) : ∀ o ∈ (s.set p x).vars, o.Ok := by
  obtain ⟨o, ho, h⟩ := get_inv h
  rw [set_eq ho]
  intro o' ho'
  rcases List.mem_or_eq_of_mem_set ho' with ho' | rfl
  · exact hok o' ho'
  · exact Obj.ok_set (hok o (List.mem_of_getElem? ho)) h ht hx

theorem accounts_set (h : s.get p = some a) :
    ∃ rest, (accountsAll s.vars).Perm (a.accounts ++ rest) ∧
      ∀ x : Obj, x.isStorage = a.isStorage →
        (accountsAll (s.set p x).vars).Perm (x.accounts ++ rest) := by
  obtain ⟨o, ho, h⟩ := get_inv h
  obtain ⟨inner, hp, hset⟩ := Obj.accounts_set h
  obtain ⟨outer, hp', hset'⟩ := accountsAll_set ho
  refine ⟨inner ++ outer, ?_, fun x hx => ?_⟩
  · rw [← List.append_assoc]
    exact hp'.trans (hp.append_right _)
  · rw [set_eq ho, ← List.append_assoc]
    exact (hset' _).trans ((hset x hx).append_right _)

theorem get_set (h : s.get p = some a) : (s.set p x).get p = some x := by
  obtain ⟨o, ho, h⟩ := get_inv h
  obtain ⟨hlt, -⟩ := List.getElem?_eq_some_iff.mp ho
  rw [set_eq ho, get, List.getElem?_set_self hlt]
  exact Obj.get_set h

theorem get_set_of_ne (hok : ∀ o ∈ s.vars, o.Ok) (hp : s.get p = some a) (hq : s.get q = some b)
    (hab : a.type = b.type) (hpq : p ≠ q) : (s.set p x).get q = some b := by
  obtain ⟨o, ho, ha⟩ := get_inv hp
  rw [set_eq ho, get]
  by_cases hv : p.var = q.var
  · obtain ⟨o', ho', hb⟩ := get_inv hq
    rw [← hv] at ho'
    cases ho.symm.trans ho'
    obtain ⟨hlt, -⟩ := List.getElem?_eq_some_iff.mp ho
    rw [← hv, List.getElem?_set_self hlt]
    refine Obj.get_set_of_ne (hok o (List.mem_of_getElem? ho)) ha hb hab fun heq => hpq ?_
    cases p
    cases q
    cases hv
    cases heq
    rfl
  · rw [List.getElem?_set_ne hv]
    exact hq

/-! ### Making objects -/

theorem take_spec (h : Inv s extra) (ht : s.take p = some (b, s')) :
    b.Ok ∧ b.constructed = true ∧ s'.Emptied p ∧ Inv s' (b.accounts ++ extra) := by
  unfold take at ht
  split at ht
  next a ha =>
    split at ht
    next hc =>
      cases ht
      obtain ⟨rest, hp, hset⟩ := accounts_set ha
      have hok := ok_get h.ok ha
      have hmoved := hset b.moved (isStorage_moved b)
      rw [accounts_moved, List.nil_append] at hmoved
      have hperm : (extra ++ accountsAll s.vars).Perm
          (b.accounts ++ extra ++ accountsAll (s.set p b.moved).vars) := by
        rw [List.append_assoc]
        refine (hp.append_left extra).trans ((List.perm_append_comm_assoc ..).trans ?_)
        exact (hmoved.symm.append_left extra).append_left _
      refine ⟨hok, hc, ⟨b.moved, get_set ha, accounts_moved b⟩, ?_, ?_, ?_⟩
      · exact ok_set h.ok ha (type_moved b) (ok_moved hok)
      · rw [log_set, next_set]
        exact h.books.perm hperm
      · rw [log_set]
        exact h.frees
    next => cases ht
  next => cases ht

/-- A buffer is allocated. -/
theorem inv_malloc (h : Inv s extra) :
    Inv { s with log := s.log ++ [Event.malloc s.next], next := s.next + 1 } ((s.next, []) :: extra) where
  ok := h.ok
  books := by
    refine h.books.opened (fun e he => ?_) ⟨[], rfl, .refl _⟩
    cases List.mem_singleton.mp he
    rfl
  frees := h.frees.append (by
    intro data hd
    cases List.mem_singleton.mp hd)

theorem fromView_spec {n : Nat} (h : Inv s []) (hf : s.fromView n = (b, s')) :
    b.Ok ∧ b.constructed = true ∧ Inv s' b.accounts := by
  unfold fromView at hf
  split at hf
  · cases hf
    exact ⟨trivial, rfl, h⟩
  · cases hf
    exact ⟨trivial, rfl, inv_malloc h⟩

theorem allocate_spec {c : Class} {elem : Ty} {n : Nat} (h : Inv s [])
    (hf : s.allocate c elem n = (b, s')) : b.Ok ∧ b.constructed = true ∧ Inv s' b.accounts := by
  unfold allocate at hf
  split at hf
  · cases hf
    exact ⟨⟨⟨rfl, rfl⟩, trivial⟩, rfl, h⟩
  next hn =>
    cases hf
    refine ⟨⟨⟨Nat.pos_of_ne_zero hn, List.length_replicate⟩, okAll_iff.mpr fun o ho => ?_⟩, rfl, ?_⟩
    · cases List.eq_of_mem_replicate ho
      exact ⟨rfl, trivial⟩
    · have hnone : (if elem.hasDestructor then initialised 0 (List.replicate n (storage elem))
          else []) = [] := by rw [initialised_replicate, ite_self]
      rw [accounts, accountsAll_replicate, List.append_nil, hnone]
      exact inv_malloc h

theorem make_spec {init : Init} (h : Inv s []) (hm : s.make init = some (b, s')) :
    b.Ok ∧ b.constructed = true ∧ Inv s' b.accounts := by
  cases init with
  | scalar =>
    cases hm
    exact ⟨trivial, rfl, h⟩
  | fromView n => exact fromView_spec h (Option.some.inj hm)
  | copy src =>
    rw [make] at hm
    split at hm
    · exact fromView_spec h (Option.some.inj hm)
    · cases hm
  | empty c elem =>
    cases hm
    exact ⟨⟨⟨rfl, rfl⟩, trivial⟩, rfl, h⟩
  | allocate c elem n => exact allocate_spec h (Option.some.inj hm)
  | move src =>
    obtain ⟨hok, hc, -, hinv⟩ := take_spec h hm
    rw [List.append_nil] at hinv
    exact ⟨hok, hc, hinv⟩
  | pair first second =>
    obtain ⟨⟨a₁, s₁⟩, h₁, hm⟩ := Option.bind_eq_some_iff.mp hm
    obtain ⟨⟨a₂, s₂⟩, h₂, hm⟩ := Option.map_eq_some_iff.mp hm
    cases hm
    obtain ⟨hok₁, hc₁, -, hinv₁⟩ := take_spec h h₁
    obtain ⟨hok₂, hc₂, -, hinv₂⟩ := take_spec hinv₁ h₂
    refine ⟨⟨hok₁, hok₂⟩, Bool.and_eq_true_iff.mpr ⟨hc₁, hc₂⟩, hinv₂.ok, ?_, hinv₂.frees⟩
    rw [List.append_nil] at hinv₂
    exact hinv₂.books.perm (List.perm_append_comm.append_right _)
  | left src second =>
    obtain ⟨⟨a₁, s₁⟩, h₁, hm⟩ := Option.map_eq_some_iff.mp hm
    cases hm
    obtain ⟨hok, hc, -, hinv⟩ := take_spec h h₁
    rw [List.append_nil] at hinv
    exact ⟨hok, hc, hinv⟩
  | right first src =>
    obtain ⟨⟨a₁, s₁⟩, h₁, hm⟩ := Option.map_eq_some_iff.mp hm
    cases hm
    obtain ⟨hok, hc, -, hinv⟩ := take_spec h h₁
    rw [List.append_nil] at hinv
    exact ⟨hok, hc, hinv⟩

/-! ### Steps -/

/-- Events that settle what goes out of a place. -/
theorem inv_replace {es : List Event} (h : Inv s []) (hp : s.get p = some a) (ht : x.type = a.type)
    (hx : x.Ok) (hs : x.isStorage = a.isStorage) (hnone : x.accounts = [])
    (hc : (a.accounts.map Prod.fst).Nodup → buffers.Closes es a.accounts) (hf : FreesHeap es) :
    Inv ((s.set p x).emit es) [] := by
  obtain ⟨rest, hperm, hset⟩ := accounts_set hp
  have hrest := hset x hs
  rw [hnone, List.nil_append] at hrest
  have hbooks := h.books.perm (hperm.trans (hrest.symm.append_left _))
  have hnd := hbooks.once
  rw [List.map_append] at hnd
  refine ⟨ok_set h.ok hp ht hx, ?_, ?_⟩
  · rw [emit, log_set, next_set, List.nil_append]
    exact hbooks.closed (hc (List.nodup_append.mp hnd).1)
  · rw [emit, log_set]
    exact h.frees.append hf

theorem leak_step (h : Inv s []) (hl : s.leak p = some s') : Inv s' [] := by
  unfold leak at hl
  split at hl
  next o ho =>
    split at hl
    next o' ho' =>
      cases hl
      obtain ⟨hok, ht, hs, hnone⟩ := leak_inv ho'
      refine inv_replace h ho ht hok hs hnone leaked_closes fun data hd => ?_
      obtain ⟨a, -, ha⟩ := List.mem_map.mp hd
      cases ha
    next => cases hl
  next => cases hl

theorem construct_step {v : Nat} {init : Init} (h : Inv s []) (hc : s.construct v init = some s') :
    Inv s' [] := by
  unfold construct at hc
  split at hc
  next o s₁ hm =>
    obtain ⟨hok, -, hinv⟩ := make_spec h hm
    split at hc
    next t ht =>
      split at hc
      next htype =>
        cases hc
        obtain ⟨rest, hp, hset⟩ := accountsAll_set ht
        have heq : s₁.set ⟨v, []⟩ o = { s₁ with vars := s₁.vars.set v o } := set_eq ht
        rw [heq]
        refine ⟨fun o' ho' => ?_, ?_, hinv.frees⟩
        · rcases List.mem_or_eq_of_mem_set ho' with ho' | rfl
          · exact hinv.ok o' ho'
          · exact hok
        · exact hinv.books.perm ((hp.append_left _).trans (hset o).symm)
      next => cases hc
    next => cases hc
  next => cases hc

/-- An element is constructed in its slot. -/
theorem placed_step {c : Class} {elem t : Ty} {data : Ptr} {length i : Nat} {elems : List Obj}
    (hb : Inv s b.accounts) (hok : b.Ok) (hcon : b.constructed = true)
    (hp : s.get p = some (.container c elem data length elems))
    (hi : elems[i]? = some (.storage t)) (ht : b.type = t) :
    Inv ((s.set p (.container c elem data length (elems.set i b))).emit
      (if elem.hasDestructor then [Event.constructed data i] else [])) [] := by
  have hchild : (container c elem data length elems).child i = some (.storage t) := hi
  have hc := ok_get hb.ok hp
  obtain ⟨id, rfl⟩ : ∃ id, data = .heap id := by
    have hpos := (List.getElem?_eq_some_iff.mp hi).1
    cases data with
    | null => exact absurd hc.1 (Nat.ne_of_gt (Nat.zero_lt_of_lt hpos))
    | empty => exact absurd hc.1.2 (Nat.ne_of_gt (Nat.zero_lt_of_lt hpos))
    | heap id => exact ⟨id, rfl⟩
  obtain ⟨rest, hperm, hset⟩ := accounts_set hp
  obtain ⟨inner, hinner, hinner'⟩ := accountsAll_set hi
  generalize hidx : (if elem.hasDestructor then initialised 0 elems else []) = idx at *
  generalize hidx' : (if elem.hasDestructor then initialised 0 (elems.set i b) else []) = idx' at *
  have hbefore : (b.accounts ++ accountsAll s.vars).Perm
      ((id, idx) :: (b.accounts ++ inner ++ rest)) := by
    have hself : (container c elem (.heap id) length elems).accounts
        = (id, idx) :: accountsAll elems := by rw [← hidx]; rfl
    rw [hself] at hperm
    refine (hperm.append_left _).trans ((List.perm_middle).trans (.cons _ ?_))
    rw [List.append_assoc]
    exact (hinner.append_right _).append_left _
  have hafter : ((id, idx') :: (b.accounts ++ inner ++ rest)).Perm (accountsAll
      (s.set p (.container c elem (.heap id) length (elems.set i b))).vars) := by
    have hself : (container c elem (.heap id) length (elems.set i b)).accounts
        = (id, idx') :: accountsAll (elems.set i b) := by rw [← hidx']; rfl
    have hnew := hset (container c elem (.heap id) length (elems.set i b)) rfl
    rw [hself] at hnew
    exact (((hinner' b).symm.append_right rest).cons _).trans hnew.symm
  have hheld : ∀ g, Held id idx g →
      Held id idx' (g ++ if elem.hasDestructor then [Event.constructed (.heap id) i] else []) := by
    rintro g ⟨cs, rfl, hcs⟩
    by_cases he : elem.hasDestructor
    · rw [if_pos he] at hidx hidx' ⊢
      refine ⟨cs ++ [Event.constructed (.heap id) i], rfl, ?_⟩
      have hplus := initialised_construct 0 hi rfl (not_isStorage_of_constructed hcon)
      rw [Nat.zero_add, hidx, hidx'] at hplus
      refine (List.perm_append_comm.trans ?_).trans (hplus.map _).symm
      exact hcs.cons _
    · rw [if_neg he] at hidx hidx' ⊢
      subst hidx hidx'
      exact ⟨cs, List.append_nil _, hcs⟩
  refine ⟨ok_set hb.ok hp rfl (ok_setChild hc hchild ht hok), ?_, ?_⟩
  · rw [emit, log_set, next_set, List.nil_append]
    refine ((hb.books.perm hbefore).changed (fun e he => ?_) hheld).perm hafter
    split at he
    · cases List.mem_singleton.mp he
      rfl
    · cases he
  · rw [emit, log_set]
    refine hb.frees.append fun data hd => ?_
    split at hd
    · cases List.mem_singleton.mp hd
    · cases hd

theorem place_step {i : Nat} (hb : Inv s b.accounts) (hok : b.Ok) (hcon : b.constructed = true)
    (hp : s.place p i b = some s') : Inv s' [] := by
  unfold place at hp
  split at hp
  next c elem data length elems hget =>
    split at hp
    next t hi =>
      split at hp
      next ht =>
        cases hp
        exact placed_step hb hok hcon hget hi ht
      next => cases hp
    next => cases hp
  next => cases hp

theorem assign_inv (h : s.assign p q = some s') :
    ∃ a b, s.get p = some a ∧ s.get q = some b ∧ a.type = b.type ∧ a.built = true ∧
      b.constructed = true ∧ s' = ((s.set p b).set q b.moved).emit (a.tornDown b) := by
  unfold assign at h
  split at h
  next a b ha hb =>
    split at h
    next hc =>
      cases h
      exact ⟨a, b, ha, hb, hc.1, hc.2.1, hc.2.2, rfl⟩
    next => cases h
  next => cases h

/-- The source is still there when the target has taken its members: it is the target,
or no part of it. -/
theorem get_source (hok : ∀ o ∈ s.vars, o.Ok) (hp : s.get p = some a) (hq : s.get q = some b)
    (ht : a.type = b.type) : (s.set p b).get q = some b := by
  by_cases hpq : p = q
  · subst hpq
    exact get_set hp
  · exact get_set_of_ne hok hp hq ht hpq

theorem assign_emptied (hok : ∀ o ∈ s.vars, o.Ok) (h : s.assign p q = some s') : s'.Emptied q := by
  obtain ⟨a, b, hp, hq, ht, -, -, rfl⟩ := assign_inv h
  exact ⟨b.moved, get_set (get_source hok hp hq ht), accounts_moved b⟩

theorem assign_step (h : Inv s []) (hs : s.skips (.assign p q) = false) (ha : s.assign p q = some s') :
    Inv s' [] := by
  obtain ⟨a, b, hp, hq, ht, hbuilt, hcon, rfl⟩ := assign_inv ha
  have hskip : a.skips b = false := by
    rw [skips, hp, hq] at hs
    exact hs
  have hsrc := get_source h.ok hp hq ht
  have hbok := ok_get h.ok hq
  have hok₁ := ok_set h.ok hp ht.symm hbok
  obtain ⟨rest, hperm, hset⟩ := accounts_set hp
  obtain ⟨rest', hperm', hset'⟩ := accounts_set hsrc
  have htaken := hset b ((not_isStorage_of_constructed hcon).trans
    (not_isStorage_of_built hbuilt).symm)
  have hmoved := hset' b.moved (isStorage_moved b)
  rw [accounts_moved, List.nil_append] at hmoved
  have hrest : rest.Perm rest' := (List.perm_append_left_iff _).mp (htaken.symm.trans hperm')
  have hbooks := h.books.perm
    (hperm.trans ((hrest.trans hmoved.symm).append_left _))
  have hnd := hbooks.once
  rw [List.map_append] at hnd
  refine ⟨ok_set hok₁ hsrc (type_moved b) (ok_moved hbok), ?_, ?_⟩
  · rw [emit, log_set, log_set, next_set, next_set, List.nil_append]
    exact hbooks.closed (tornDown_closes a b (ok_get h.ok hp) hbuilt (List.nodup_append.mp hnd).1
      ht hcon hskip)
  · rw [emit, log_set, log_set]
    exact h.frees.append (freesHeap_tornDown a b (ok_get h.ok hp))

theorem destroy_step {v : Nat} (h : Inv s []) (hd : s.destroy v = some s') : Inv s' [] := by
  unfold destroy at hd
  split at hd
  next o ho =>
    split at hd
    next hb =>
      cases hd
      have hok := h.ok o (List.mem_of_getElem? ho)
      obtain ⟨rest, hperm, hset⟩ := accountsAll_set ho
      have hbooks := h.books.perm (hperm.trans ((hset (.storage o.type)).symm.append_left _))
      have hnd := hbooks.once
      rw [List.map_append] at hnd
      have heq : s.set ⟨v, []⟩ (.storage o.type)
          = { s with vars := s.vars.set v (.storage o.type) } := set_eq ho
      rw [heq]
      refine ⟨fun o' ho' => ?_, ?_, h.frees.append (freesHeap_destroy o hok)⟩
      · rcases List.mem_or_eq_of_mem_set ho' with ho' | rfl
        · exact h.ok o' ho'
        · trivial
      · exact hbooks.closed (destroy_closes o hok hb (List.nodup_append.mp hnd).1)
    next => cases hd
  next => cases hd

theorem step_inv {op : Op} (h : Inv s []) (hs : s.skips op = false) (hstep : s.step op = some s') :
    Inv s' [] := by
  cases op with
  | construct v init => exact construct_step h hstep
  | place dst i init =>
    obtain ⟨⟨b, s₁⟩, hm, hp⟩ := Option.bind_eq_some_iff.mp hstep
    obtain ⟨hok, hc, hinv⟩ := make_spec h hm
    exact place_step hinv hok hc hp
  | assign dst src => exact assign_step h hs hstep
  | leak p => exact leak_step h hstep
  | destroy v => exact destroy_step h hstep

end State

/-! ## Runs -/

theorem Inv.initial (types : List Ty) : Inv ⟨types.map .storage, [], 0⟩ [] where
  ok o ho := by
    obtain ⟨t, -, rfl⟩ := List.mem_map.mp ho
    trivial
  books := by
    have hnone : accountsAll (types.map .storage) = [] := by
      induction types with
      | nil => rfl
      | cons t types ih => exact ih
    rw [hnone]
    exact .empty
  frees := .nil

theorem Inv.sound {s : State} (h : Inv s []) : Sound s where
  once := h.books.once
  held a ha := (h.books.held a ha).2
  settled := h.books.settled
  sentinel := h.frees
  moved _ _ _ ht := (State.take_spec h ht).2.2.1
  assigned _ _ _ ha := State.assign_emptied h.ok ha

theorem step_of_exec {types : List Ty} {s s' : State} {op : Op}
    (h : (program types).exec s op = .ok s') : s.step op = some s' := by
  unfold program at h
  dsimp only at h
  split at h
  next s₁ hs =>
    cases h
    exact hs
  next => cases h

theorem careful_inv {types : List Ty} {s : State} (h : (careful types).Reachable s) : Inv s [] := by
  refine h.invariant (I := fun s => Inv s []) (fun s hs => ?_) fun s op s' hinv hallowed hexec => ?_
  · cases hs
    exact .initial types
  · have hprogram : (program types).exec s op = .ok s' := hexec
    exact State.step_inv hinv hallowed (step_of_exec hprogram)

/-- Every buffer is freed once, after its elements, or leaked, and the sentinel never is
freed, in a program that does not assign to vectors that still own something in their
elements. -/
theorem containers_sound (types : List Ty) (s : State) (h : (careful types).Reachable s) :
    Sound s :=
  (careful_inv h).sound

/-- A vector of one string is moved to another variable, which then goes out of scope. -/
theorem strings_sound :
    Sound ⟨[.container .vector .string .null 1 [], .string .null 3, .storage (.vector .string)],
      [Event.malloc 0, Event.malloc 1, Event.constructed (.heap 0) 0, Event.destroyed (.heap 0) 0, .free (.heap 1),
        .free (.heap 0)], 2⟩ :=
  containers_sound [.vector .string, .string, .vector .string] _
    (.step _ _ (.destroy 2) (.step _ _ (.construct 2 (.move ⟨0, []⟩))
      (.step _ _ (.place ⟨0, []⟩ 0 (.move ⟨1, []⟩)) (.step _ _ (.construct 1 (.fromView 3))
        (.step _ _ (.construct 0 (.allocate .vector .string 1)) (.init _ rfl) rfl rfl)
        rfl rfl) rfl rfl) rfl rfl) rfl rfl)

/-- A vector of one string is assigned from an empty one: the string is never freed. -/
theorem assigned_vector_forgets :
    ¬ ∀ (types : List Ty) (s : State), (program types).Reachable s → Sound s := by
  intro h
  have hs := h [.vector .string, .string, .vector .string]
    ⟨[.container .vector .string .empty 0 [], .string .null 3,
        .container .vector .string .null 0 []],
      [Event.malloc 0, Event.malloc 1, Event.constructed (.heap 0) 0, .free (.heap 0)], 2⟩
    (.step _ _ (.assign ⟨0, []⟩ ⟨2, []⟩) (.step _ _ (.construct 2 (.empty .vector .string))
      (.step _ _ (.place ⟨0, []⟩ 0 (.move ⟨1, []⟩)) (.step _ _ (.construct 1 (.fromView 3))
        (.step _ _ (.construct 0 (.allocate .vector .string 1)) (.init _ rfl) trivial rfl)
        trivial rfl) trivial rfl) trivial rfl) trivial rfl)
  have hlength : ∀ cs es : List Event, [Event.malloc 1] ≠ Event.malloc 1 :: cs ++ (es ++ [Event.free (.heap 1)]) := by
    intro cs es heq
    have := congrArg List.length heq
    simp at this
  rcases hs.settled 1 (by decide) (by decide) with ⟨cs, n, hfreed, -⟩ | ⟨cs, is, hleaked, -⟩
  · exact hlength _ _ hfreed
  · have := congrArg List.length hleaked
    simp [State.history, Bookkeeping.history, buffers, Event.about] at this

end WitBindgen.Cpp.Containers
