import WitBindgen.Wit.Resolve
import Mathlib.Data.List.Perm.Basic

/-!
# Handles in the parameters of exported functions

`HandleLift` of the C++ backend, for the export direction. Whether a resource is one
of the component's own is read off an interface: that of the class for the class's
name, that of the type one alias step away for the wrapper of an `own`, and none at
all for a `borrow`, whose core value is taken for an address.
-/

namespace WitBindgen.Cpp

/-! ## Resources -/

abbrev InterfaceId := Nat

inductive TypeOwner where
  | world
  | interface (id : InterfaceId)
  deriving DecidableEq

/-- A resource, or an alias of one that a `use` makes. -/
inductive ResourceDef where
  | resource (owner : TypeOwner)
  | type (owner : TypeOwner) (of : ResourceDef)
  deriving DecidableEq

inductive Direction where
  | import_
  | export_
  deriving DecidableEq

namespace ResourceDef

def owner : ResourceDef → TypeOwner
  | resource owner => owner
  | type owner _ => owner

/-- One alias step. -/
def followed : ResourceDef → ResourceDef
  | type _ of => of
  | resource owner => resource owner

def definition : ResourceDef → TypeOwner
  | resource owner => owner
  | type _ of => of.definition

/-- The resource that a type of an exported interface stands for: a `use` of an
exported interface is a `use` of that export, and anything else is imported. -/
def direction (exports : InterfaceId → Bool) : ResourceDef → Direction
  | resource (.interface i) => if exports i then .export_ else .import_
  | type (.interface i) of => if exports i then of.direction exports else .import_
  | resource .world | type .world _ => .import_

end ResourceDef

/-- The types, and the imported interfaces that have not been exported since. -/
structure CppInterfaceGenerator where
  types : TypeId → ResourceDef
  importedInterfaces : InterfaceId → Bool

namespace CppInterfaceGenerator

def isExportedType (g : CppInterfaceGenerator) : TypeOwner → Bool
  | .interface i => !g.importedInterfaces i
  | .world => false

/-- What the class is derived from that `type_name` names, where its members are defined. For a
resource of the world `type_resource` prints a class derived from `ResourceImportBase`, whose
constructor from a handle and whose destructor are declared and defined nowhere. -/
def baseClass (g : CppInterfaceGenerator) (id : TypeId) : Option Direction :=
  match (g.types id).definition with
  | .world => none
  | .interface i => some (if g.isExportedType (.interface i) then .export_ else .import_)

/-- `is_exported` of `HandleLift`. -/
def isExported (g : CppInterfaceGenerator) (id : TypeId) : Bool := g.isExportedType (g.types id).followed.owner

end CppInterfaceGenerator

/-! ## Objects -/

abbrev Word := BitVec 32

inductive Object where
  /-- `std::ref(*(T *)op)`. -/
  | reference (address : Word)
  /-- `T(wit::ResourceImportBase{op})`. -/
  | imported (handle : Word)
  /-- `T::Owned`, a `std::unique_ptr`. -/
  | owned (address : Word)
  deriving DecidableEq

inductive Fault where
  /-- The code does not compile. -/
  | ill
  /-- The host stops the component. -/
  | trap
  deriving DecidableEq

/-- `rep` are the representations of the component's own handles, and `handle` is the
field of the objects of exported classes. -/
structure Component where
  rep : Word → Option Word
  handle : Word → Word

/-- What the emitted code needs of the class to be compiled and linked. -/
def CppInterfaceGenerator.Compiles (g : CppInterfaceGenerator) : Handle → Prop
  | .own id => g.baseClass id = some (if g.isExported id then .export_ else .import_)
  | .borrow id => g.baseClass id ≠ none

def resourceRep (c : Component) (id : Word) : Except Fault Word :=
  match c.rep id with
  | some address => .ok address
  | none => .error .trap

/-- The object that the code of `HandleLift` makes. -/
def handleLift (g : CppInterfaceGenerator) (c : Component) (handle : Handle) (op : Word) : Except Fault Object :=
  match handle with
  | .own id =>
    if g.isExported id then do .ok (.owned (← resourceRep c op)) else .ok (.imported op)
  | .borrow _ => .ok (.reference op)

/-- The calls of `resource-drop` at the end of the object. -/
def Object.drops (c : Component) : Object → List Word
  | .reference _ => []
  | .imported handle => if 0 ≤ handle.toInt then [handle] else []
  | .owned address => if 0 ≤ (c.handle address).toInt then [c.handle address] else []

/-! ## Parameters -/

/-- A handle is somewhere in the type. -/
inductive Holds (h : Handle) : Ty → Prop
  | handle {id name} : Holds h (.handle id h name)
  | type {id t} (ht : Holds h t) : Holds h (.type id t)
  | list {id t} (ht : Holds h t) : Holds h (.list id t)
  | fixedLengthList {id t n} (ht : Holds h t) : Holds h (.fixedLengthList id t n)
  | key {id key value} (ht : Holds h key) : Holds h (.map id key value)
  | value {id key value} (ht : Holds h value) : Holds h (.map id key value)
  | field {ty types t} (hf : ty.fieldTypes = some types) (hm : t ∈ types) (ht : Holds h t) : Holds h ty
  | arm {ty arms t} (ha : ty.arms = some arms) (hm : some t ∈ arms) (ht : Holds h t) : Holds h ty

def handlesOfFields (members : List (Val → List (Handle × Word))) (vs : List Val) :
    List (Handle × Word) :=
  (members.zip vs).flatMap fun x => x.1 x.2

def handlesOfArm (arms : List (Option (Val → List (Handle × Word)))) (d : Nat) (payload : Val) :
    List (Handle × Word) :=
  match arms[d]? with
  | some (some handles) => handles payload
  | _ => []

/-- The handles in a value, with the core values that the host passed for them. -/
def handlesOf : Ty → Val → List (Handle × Word)
  | .handle _ h _, .handle n => [(h, n)]
  | .type _ t, v => handlesOf t v
  | .list _ t, .list vs | .fixedLengthList _ t _, .list vs => vs.flatMap fun v => handlesOf t v
  | .map _ key value, .map es => es.flatMap fun e => handlesOf key e.1 ++ handlesOf value e.2
  | .record _ _ fields, .record vs => handlesOfFields (fields.map fun f => handlesOf f.2) vs
  | .tuple _ types, .record vs => handlesOfFields (types.map fun t => handlesOf t) vs
  | .variant _ _ cases, .variant d (some v) =>
    handlesOfArm (cases.map fun c => match _h : c.2 with
      | none => none
      | some t => some (handlesOf t)) d v
  | .option _ t, .variant d (some v) => handlesOfArm [none, some (handlesOf t)] d v
  | .result _ ok err, .variant d (some v) =>
    handlesOfArm
      [match ok with | none => none | some t => some (handlesOf t),
       match err with | none => none | some t => some (handlesOf t)] d v
  | _, _ => []
termination_by t => sizeOf t
decreasing_by
  all_goals first
    | decreasing_tactic
    | with_reducible exact Ty.sizeOf_field ‹_›
    | with_reducible exact Ty.sizeOf_tuple ‹_›
    | with_reducible exact Ty.sizeOf_arm ‹_› ‹_›

/-- The handles in the arguments. -/
def argHandles (params : List Ty) (vs : List Val) : List (Handle × Word) :=
  handlesOfFields (params.map handlesOf) vs

/-- The objects that are made of the handles, one by one as the values hold them. The code
around `HandleLift` that takes the handles out of the values is not part of it. -/
def liftHandles (g : CppInterfaceGenerator) (c : Component) :
    List (Handle × Word) → Except Fault (List ((Handle × Word) × Object))
  | [] => .ok []
  | x :: xs => do
      let object ← handleLift g c x.1 x.2
      let objects ← liftHandles g c xs
      .ok ((x, object) :: objects)

/-- What the end of an object drops, unless user code moved it out. -/
def Object.leaves (c : Component) (object : Object) (moved : Bool) : List Word :=
  if moved then [] else object.drops c

/-! ## What is to hold -/

section

variable (g : CppInterfaceGenerator) (exports : InterfaceId → Bool) (c : Component)

def CppInterfaceGenerator.direction (handle : Handle) : Direction :=
  (g.types handle.resource).direction exports

/-- The object is the resource that the host passed. -/
def Denotes (handle : Handle) (n : Word) (object : Object) : Prop :=
  match g.direction exports handle, handle with
  | .export_, .borrow _ => object = .reference n
  | .export_, .own _ => ∃ address, c.rep n = some address ∧ object = .owned address
  | .import_, _ => object = .imported n

/-- What is to be dropped before the export returns. -/
def toDrop (handle : Handle) (n : Word) (moved : Bool) : List Word :=
  match g.direction exports handle, handle with
  | .export_, .borrow _ => []
  | .import_, .borrow _ => [n]
  | _, .own _ => if moved then [] else [n]

/-- The code compiles, and whatever user code moves out of the objects it gets, each is
the resource that the host passed and what is left of them is dropped once. -/
structure Faithful (params : List Ty) (vs : List Val) : Prop where
  compiles : ∀ t ∈ params, ∀ h, Holds h t → g.Compiles h
  lifted : ∃ objects, liftHandles g c (argHandles params vs) = .ok objects ∧
    (∀ x ∈ objects, Denotes g exports c x.1.1 x.1.2 x.2) ∧
    ∀ moved : List Bool, moved.length = objects.length →
      ((objects.zip moved).flatMap fun x => x.1.2.leaves c x.2).Perm
        ((objects.zip moved).flatMap fun x => toDrop g exports x.1.1.1 x.1.1.2 x.2)

/-- Borrows are of exported resources, and an `own` is told rightly whether it is; one
that is comes back at the index that its object remembers. -/
def Meets (handle : Handle) (n : Word) : Prop :=
  match handle with
  | .borrow _ => g.direction exports handle = .export_
  | .own id => (g.isExported id ↔ g.direction exports handle = .export_) ∧ 0 ≤ n.toInt ∧
      (g.direction exports handle = .export_ → ∃ address, c.rep n = some address ∧
        c.handle address = n)

end

section

variable {g : CppInterfaceGenerator} {exports : InterfaceId → Bool} {c : Component}

/-! ## One handle -/

theorem handleLift_exported {id : TypeId} {n : Word} (h : g.isExported id) {object : Object} :
    handleLift g c (.own id) n = .ok object ↔
      ∃ address, c.rep n = some address ∧ object = .owned address := by
  rw [handleLift]
  simp only [if_pos h, resourceRep]
  cases c.rep n with
  | none => exact iff_of_false nofun (fun ⟨_, h, _⟩ => nomatch h)
  | some address =>
    constructor
    · intro heq
      cases heq
      exact ⟨address, rfl, rfl⟩
    · rintro ⟨_, ⟨⟩, rfl⟩
      rfl

theorem handleLift_imported {id : TypeId} {n : Word} (h : ¬ g.isExported id) :
    handleLift g c (.own id) n = .ok (.imported n) := by
  rw [handleLift]
  exact if_neg h

theorem drops_imported {n : Word} : (Object.imported n).drops c = [n] ↔ 0 ≤ n.toInt := by
  rw [Object.drops]
  by_cases h : 0 ≤ n.toInt
  · rw [if_pos h]
    exact iff_of_true rfl h
  · rw [if_neg h]
    exact iff_of_false nofun h

theorem drops_owned {n address : Word} :
    (Object.owned address).drops c = [n] ↔ c.handle address = n ∧ 0 ≤ n.toInt := by
  rw [Object.drops]
  by_cases h : 0 ≤ (c.handle address).toInt
  · rw [if_pos h, List.singleton_inj]
    constructor
    · rintro rfl
      exact ⟨rfl, h⟩
    · exact And.left
  · rw [if_neg h]
    refine iff_of_false nofun ?_
    rintro ⟨rfl, hn⟩
    exact h hn

theorem drops_nil_or (object : Object) : object.drops c = [] ∨ ∃ n, object.drops c = [n] := by
  cases object with
  | reference address => exact Or.inl rfl
  | imported n =>
    rw [Object.drops]
    split
    · exact Or.inr ⟨n, rfl⟩
    · exact Or.inl rfl
  | owned address =>
    rw [Object.drops]
    split
    · exact Or.inr ⟨_, rfl⟩
    · exact Or.inl rfl

/-- The code for a handle is right exactly if the condition holds. -/
theorem meets_iff {handle : Handle} {n : Word} : Meets g exports c handle n ↔
    ∃ object, handleLift g c handle n = .ok object ∧ Denotes g exports c handle n object ∧
      ∀ moved, object.leaves c moved = toDrop g exports handle n moved := by
  cases handle with
  | borrow id =>
    rw [Meets]
    cases hd : g.direction exports (.borrow id) with
    | export_ =>
      refine iff_of_true rfl ⟨.reference n, rfl, ?_, fun moved => ?_⟩
      · simp only [Denotes, hd]
      · simp only [toDrop, hd, Object.leaves, Object.drops, ite_self]
    | import_ =>
      refine iff_of_false nofun ?_
      rintro ⟨object, hlift, hden, -⟩
      simp only [Denotes, hd] at hden
      cases hlift
      cases hden
  | own id =>
    rw [Meets]
    have hleaves : ∀ object : Object, object.drops c = [n] ↔
        ∀ moved, object.leaves c moved = toDrop g exports (.own id) n moved := by
      intro object
      have hdrop : ∀ moved, toDrop g exports (.own id) n moved = if moved then [] else [n] := by
        intro moved
        cases hd : g.direction exports (.own id) <;> simp only [toDrop, hd]
      constructor
      · intro h moved
        rw [hdrop, Object.leaves, h]
      · intro h
        exact (h false).trans (hdrop false)
    cases hd : g.direction exports (.own id) with
    | export_ =>
      by_cases he : g.isExported id
      · constructor
        · rintro ⟨-, hn, hrep⟩
          obtain ⟨address, hrep, hfield⟩ := hrep rfl
          refine ⟨.owned address, (handleLift_exported he).mpr ⟨address, hrep, rfl⟩, ?_,
            (hleaves _).mp (drops_owned.mpr ⟨hfield, hn⟩)⟩
          simp only [Denotes, hd]
          exact ⟨address, hrep, rfl⟩
        · rintro ⟨object, hlift, -, hdrops⟩
          obtain ⟨address, hrep, rfl⟩ := (handleLift_exported he).mp hlift
          obtain ⟨hfield, hn⟩ := drops_owned.mp ((hleaves _).mpr hdrops)
          exact ⟨iff_of_true he rfl, hn, fun _ => ⟨address, hrep, hfield⟩⟩
      · refine iff_of_false (fun h => he (h.1.mpr rfl)) ?_
        rintro ⟨object, hlift, hden, -⟩
        simp only [Denotes, hd] at hden
        obtain ⟨address, -, rfl⟩ := hden
        cases (handleLift_imported he).symm.trans hlift
    | import_ =>
      by_cases he : g.isExported id
      · refine iff_of_false (fun h => nomatch h.1.mp he) ?_
        rintro ⟨object, hlift, hden, -⟩
        simp only [Denotes, hd] at hden
        obtain ⟨address, -, rfl⟩ := (handleLift_exported he).mp hlift
        cases hden
      · constructor
        · rintro ⟨-, hn, -⟩
          refine ⟨.imported n, handleLift_imported he, ?_,
            (hleaves _).mp (drops_imported.mpr hn)⟩
          simp only [Denotes, hd]
        · rintro ⟨object, hlift, -, hdrops⟩
          cases (handleLift_imported he).symm.trans hlift
          exact ⟨iff_of_false he nofun, drops_imported.mp ((hleaves _).mpr hdrops), nofun⟩

/-! ## All of them -/

theorem liftHandles_ok {handles : List (Handle × Word)} {objects : List ((Handle × Word) × Object)} :
    liftHandles g c handles = .ok objects ↔ objects.map (·.1) = handles ∧
      ∀ x ∈ objects, handleLift g c x.1.1 x.1.2 = .ok x.2 := by
  induction handles generalizing objects with
  | nil =>
    rw [liftHandles]
    constructor
    · intro heq
      cases heq
      exact ⟨rfl, nofun⟩
    · rintro ⟨hmap, -⟩
      rw [List.map_eq_nil_iff.mp hmap]
  | cons x xs ih =>
    rw [liftHandles]
    constructor
    · intro heq
      cases hx : handleLift g c x.1 x.2 with
      | error _ =>
        rw [hx] at heq
        cases heq
      | ok object =>
        cases hxs : liftHandles g c xs with
        | error _ =>
          rw [hx, hxs] at heq
          cases heq
        | ok rest =>
          rw [hx, hxs] at heq
          cases heq
          obtain ⟨hmap, hrest⟩ := ih.mp hxs
          refine ⟨by rw [List.map_cons, hmap], ?_⟩
          exact List.forall_mem_cons.mpr ⟨hx, hrest⟩
    · rintro ⟨hmap, hall⟩
      obtain ⟨y, ys, rfl, rfl, hys⟩ := List.map_eq_cons_iff.mp hmap
      obtain ⟨hy, hrest⟩ := List.forall_mem_cons.mp hall
      rw [hy, ih.mpr ⟨hys, hrest⟩]
      rfl

theorem exists_liftHandles {handles : List (Handle × Word)} {P : Handle → Word → Object → Prop}
    (h : ∀ x ∈ handles, ∃ object, handleLift g c x.1 x.2 = .ok object ∧ P x.1 x.2 object) :
    ∃ objects, liftHandles g c handles = .ok objects ∧ ∀ x ∈ objects, P x.1.1 x.1.2 x.2 := by
  induction handles with
  | nil => exact ⟨[], rfl, nofun⟩
  | cons x xs ih =>
    obtain ⟨⟨object, hobject, hP⟩, hxs⟩ := List.forall_mem_cons.mp h
    obtain ⟨objects, hobjects, hrest⟩ := ih hxs
    refine ⟨(x, object) :: objects, by rw [liftHandles, hobject, hobjects]; rfl, ?_⟩
    exact List.forall_mem_cons.mpr ⟨hP, hrest⟩

end

/-- Pieces that are together the same, whichever are left out, are the same one by
one: leave out all others. -/
theorem pieces_perm {α β : Type} {F G : α → Bool → List β} (hF : ∀ x, F x true = []) {xs : List α}
    (h : ∀ moved : List Bool, moved.length = xs.length →
      ((xs.zip moved).flatMap fun x => F x.1 x.2).Perm
        ((xs.zip moved).flatMap fun x => G x.1 x.2)) :
    ∀ x ∈ xs, G x true = [] ∧ (F x false).Perm (G x false) := by
  have hout : ∀ (H : α → Bool → List β) (ys : List α), (∀ y ∈ ys, H y true = []) →
      ((ys.zip (List.replicate ys.length true)).flatMap fun x => H x.1 x.2) = [] := by
    intro H ys hys
    refine List.flatMap_eq_nil_iff.mpr fun x hx => ?_
    obtain ⟨hy, hb⟩ := List.of_mem_zip hx
    rw [List.eq_of_mem_replicate hb]
    exact hys x.1 hy
  have hnone : ∀ x ∈ xs, G x true = [] := by
    intro x hx
    have hperm := h (List.replicate xs.length true) List.length_replicate
    rw [hout F xs fun y _ => hF y, List.nil_perm] at hperm
    refine List.flatMap_eq_nil_iff.mp hperm (x, true) ?_
    obtain ⟨i, hi, rfl⟩ := List.mem_iff_getElem.mp hx
    refine List.mem_iff_getElem.mpr ⟨i, by simpa using hi, ?_⟩
    simp
  induction xs with
  | nil => exact fun x hx => nomatch hx
  | cons x xs ih =>
    have htail : ∀ (b : Bool) (moved : List Bool), moved.length = xs.length →
        (F x b ++ (xs.zip moved).flatMap fun x => F x.1 x.2).Perm
          (G x b ++ (xs.zip moved).flatMap fun x => G x.1 x.2) := by
      intro b moved hlen
      exact h (b :: moved) (congrArg (· + 1) hlen)
    have hGx : G x true = [] := hnone x (List.mem_cons_self ..)
    have hrest : ∀ y ∈ xs, G y true = [] := fun y hy => hnone y (List.mem_cons_of_mem x hy)
    refine List.forall_mem_cons.mpr ⟨⟨hGx, ?_⟩, ih (fun moved hlen => ?_) hrest⟩
    · have hx := htail false (List.replicate xs.length true) List.length_replicate
      rwa [hout F xs fun y _ => hF y, hout G xs hrest, List.append_nil, List.append_nil] at hx
    · have hx := htail true moved hlen
      rwa [hF, hGx, List.nil_append, List.nil_append] at hx

/-! ## Exported functions -/

/-- An exported function gets its handles right exactly if its types compile and all
handles in its arguments meet the condition. -/
theorem faithful_iff (g : CppInterfaceGenerator) (exports : InterfaceId → Bool) (c : Component)
    (params : List Ty) (vs : List Val) : Faithful g exports c params vs ↔
      (∀ t ∈ params, ∀ h, Holds h t → g.Compiles h) ∧
        ∀ x ∈ argHandles params vs, Meets g exports c x.1 x.2 := by
  constructor
  · rintro ⟨hcompiles, objects, hlift, hden, hdrops⟩
    refine ⟨hcompiles, fun x hx => meets_iff.mpr ?_⟩
    obtain ⟨hmap, hall⟩ := liftHandles_ok.mp hlift
    rw [← hmap] at hx
    obtain ⟨y, hy, rfl⟩ := List.mem_map.mp hx
    obtain ⟨hout, hin⟩ := pieces_perm
      (F := fun x : (Handle × Word) × Object => x.2.leaves c)
      (G := fun x => toDrop g exports x.1.1 x.1.2) (fun _ => rfl) hdrops y hy
    refine ⟨y.2, hall y hy, hden y hy, fun moved => ?_⟩
    cases moved with
    | true => exact hout.symm
    | false =>
      rcases drops_nil_or (c := c) y.2 with hnil | ⟨n, hn⟩
      · rw [Object.leaves, if_neg Bool.false_ne_true, hnil] at hin ⊢
        exact (List.nil_perm.mp hin).symm
      · rw [Object.leaves, if_neg Bool.false_ne_true, hn] at hin ⊢
        exact List.singleton_perm.mp hin
  · rintro ⟨hcompiles, hmeets⟩
    obtain ⟨objects, hlift, hall⟩ := exists_liftHandles
      (P := fun h n o => Denotes g exports c h n o ∧
        ∀ moved, o.leaves c moved = toDrop g exports h n moved)
      fun x hx => meets_iff.mp (hmeets x hx)
    refine ⟨hcompiles, objects, hlift, fun x hx => (hall x hx).1, fun moved _ => ?_⟩
    refine List.Perm.of_eq ?_
    refine List.flatMap_congr fun x hx => ?_
    exact (hall x.1 (List.of_mem_zip hx).1).2 x.2

/-- An exported function that borrows a resource of an imported interface takes the
handle's index for an address. -/
theorem imported_borrow_unfaithful :
    ¬ Faithful ⟨fun _ => .type (.interface 1) (.resource (.interface 0)), (· == 0)⟩ (· == 1)
      ⟨fun _ => none, fun _ => 0⟩ [.handle 0 (.borrow 0) "r"] [.handle 7] := by
  rintro ⟨-, objects, hlift, hden, -⟩
  obtain ⟨hmap, hall⟩ := liftHandles_ok.mp hlift
  obtain ⟨⟨_, object⟩, hx, rfl⟩ : ∃ x ∈ objects, x.1 = (Handle.borrow 0, 7) := by
    refine List.mem_map.mp ?_
    rw [hmap]
    simp [argHandles, handlesOfFields, handlesOf]
  have hlifted := hall _ hx
  have hdenotes := hden _ hx
  obtain rfl : Object.reference 7 = object := Except.ok.inj hlifted
  cases hdenotes

end WitBindgen.Cpp
