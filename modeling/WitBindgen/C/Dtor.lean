import WitBindgen.Library.Runs
import WitBindgen.Types.Shape

/-!
# The destructors of the C generator

`define_live_types` walks the types of an interface, of the functions of a world
or of its type imports, in topological order, and prints a typedef and a
destructor for each type it has not met. `define_dtor` builds the destructor out
of those it finds in `dtor_funcs`. Between the imports and the exports
`remove_types_redefined_by_exports` forgets the types that are printed again.

Anonymous types made of primitives only are named after their structure, and so
have one typedef for the whole world, however many type ids they come under.
-/

namespace WitBindgen.C

/-! ## Values and what a destructor does to them -/

/-- A C value: buffers are known by a number, and an empty string or list has
none. The entries of a map are structs of two members; a case without payload
holds a scalar. -/
inductive CVal where
  | scalar
  | string (buf : Option Nat)
  | list (buf : Option Nat) (elements : List CVal)
  | struct (members : List CVal)
  | case (i : Nat) (payload : CVal)

instance : Inhabited CVal := ⟨.scalar⟩

inductive Access where
  | read (buf : Nat)
  | free (buf : Nat)
deriving DecidableEq

/-- A destructor, as what it does to the buffers of the value it is called on. -/
abbrev Dtor := CVal → List Access

/-- A call that is printed only if there is a destructor. -/
def call (d : Option Dtor) (v : CVal) : List Access := d.elim [] fun f => f v

/-- The body that calls a destructor for each member: no body, no function. -/
def fieldsBody (ds : List (Option Dtor)) : Option Dtor :=
  if ds.all Option.isNone then none
  else some fun v =>
    match v with
    | .struct vs => (ds.zip vs).flatMap fun x => call x.1 x.2
    | _ => []

/-- A `switch` over the tag, or the test of an option or a result. -/
def casesBody (ds : List (Option Dtor)) : Option Dtor :=
  some fun v =>
    match v with
    | .case i payload => call (ds[i]?.join) payload
    | _ => []

/-- A call on something inside a buffer, which is read for it. -/
def callInside (buf : Nat) (d : Option Dtor) (v : CVal) : List Access :=
  d.elim [] fun f => .read buf :: f v

/-- The loop over a list, then its buffer. -/
def listBody (element : Option Dtor) : Option Dtor :=
  some fun v =>
    match v with
    | .list (some buf) vs => (vs.flatMap fun v => callInside buf element v) ++ [Access.free buf]
    | _ => []

def mapBody (key value : Option Dtor) : Option Dtor :=
  some fun v =>
    match v with
    | .list (some buf) es =>
      (es.flatMap fun e =>
        match e with
        | .struct [k, x] => callInside buf key k ++ callInside buf value x
        | _ => []) ++ [Access.free buf]
    | _ => []

/-- `string_free`. -/
def stringFree : Dtor := fun v =>
  match v with
  | .string (some buf) => [Access.free buf]
  | _ => []

/-- The body of the destructor of the definition of `i`; `free` is the destructor
that a component is given to. -/
def dtorBody (i : TypeId) (free : TypeRef → Option Dtor) : TypeDefKind → Option Dtor
  | .type t => free t
  | .flags _ | .enum _ | .resource | .unknown => none
  | .record fields => fieldsBody (fields.map fun f => free f.2)
  | .tuple types => fieldsBody (types.map free)
  | .list t => listBody (free t)
  | .variant cases => casesBody (cases.map fun c => c.2.bind free)
  | .option t => casesBody [none, free t]
  | .result ok err => casesBody [ok.bind free, err.bind free]
  -- freed as what they are, which has no destructor yet
  | .future _ | .stream _ => free (.id i)
  | .handle h => free (.id h.resource)
  | .fixedLengthList _ _ => none
  | .map k v => mapBody (free k) (free v)

/-- The types that `define_dtor` frees. -/
def freedTypes : TypeDefKind → List TypeRef
  | .future _ | .stream _ => []
  | k => k.components

/-! ## Names -/

/-- The definitions of a `Resolve` with their names, as parsing leaves them: a
variant has a case, and a handle refers to a resource. -/
structure Defs extends Resolve where
  name : TypeId → Option String
  variants : ∀ i cases, types i = .variant cases → cases ≠ []
  handles : ∀ i h, types i = .handle h → ∃ k, toResolve.shape (.id h.resource) = .resource k

/-- What the name of a primitive type is spelled with. -/
inductive Token where
  | word (s : String)
  | tuple (n : Nat)
deriving DecidableEq

def primToken : Prim → String
  | .bool => "bool"
  | .char => "char32"
  | .u8 => "u8"
  | .s8 => "s8"
  | .u16 => "u16"
  | .s16 => "s16"
  | .u32 => "u32"
  | .s32 => "s32"
  | .u64 => "u64"
  | .s64 => "s64"
  | .f32 => "f32"
  | .f64 => "f64"

/-- `push_ty_name` of a type made of primitives, in pieces. -/
def pushTyName : Shape → List Token
  | .prim p => [.word (primToken p)]
  | .string => [.word "string"]
  | .list s => .word "list" :: pushTyName s
  | .option s => .word "option" :: pushTyName s
  | .tuple ss => .tuple ss.length :: (ss.map fun s => pushTyName s).flatten
  | .map k v => .word "map" :: (pushTyName k ++ pushTyName v)
  | _ => []

namespace Defs

variable (D : Defs)

/-- `is_prim_type_id`, looked into `n` definitions deep: a name of its own makes
a type something else. -/
def isPrimTo : Nat → TypeRef → Bool
  | _, .prim _ | _, .string | _, .errorContext => true
  | 0, .id _ => false
  | n + 1, .id i =>
    (D.name i).isNone &&
    match D.types i with
    | .list t | .option t | .type t => isPrimTo n t
    | .tuple types => types.all (isPrimTo n)
    | .map k v => isPrimTo n k && isPrimTo n v
    | _ => false

def isPrim (i : TypeId) : Bool := D.isPrimTo (D.weight (.id i)) (.id i)

def primName (i : TypeId) : List Token := pushTyName (D.shape (.id i))

/-- Whether `define_type`, or `define_anonymous_type` for a type without a name,
has something to print. -/
def printable (i : TypeId) : Bool :=
  match D.name i, D.types i with
  | some _, .handle _ | some _, .fixedLengthList _ _ | _, .unknown => false
  | some _, _ => true
  | none, .tuple _ | none, .option _ | none, .result _ _ | none, .list _ => true
  | none, .future _ | none, .stream _ | none, .handle _ | none, .map _ _ => true
  | none, _ => false

end Defs

/-! ## The generator -/

inductive Panic where
  | todo
deriving DecidableEq

/-- What the generator is given: a type in its turn, or what to keep. -/
inductive Given where
  | type (i : TypeId)
  | keep (keep : TypeId → Bool)

/-- A typedef with its destructor, if it has one, and all that was given up to it, the last first. -/
structure Printed where
  id : TypeId
  dtor : Option Dtor
  given : List Given

structure Gen where
  typeNames : List TypeId
  primNames : List (List Token)
  dtorFuncs : TypeId → Option Dtor
  given : List Given
  printed : List Printed

namespace Gen

def initial : Gen := ⟨[], [], fun _ => none, [], []⟩

/-- `free`: the call that is printed for a component. -/
def free (g : Gen) : TypeRef → Option Dtor
  | .id i => g.dtorFuncs i
  | .string => some stringFree
  | _ => none

variable (D : Defs)

/-- `define_dtor`, after the typedef is printed. -/
def defineDtor (g : Gen) (i : TypeId) : Except Panic Gen :=
  if D.printable i && !(freedTypes (D.types i)).contains .errorContext then
    let dtor := dtorBody i g.free (D.types i)
    .ok { g with
      dtorFuncs := fun j => if j = i then dtor else g.dtorFuncs j
      printed := ⟨i, dtor, g.given⟩ :: g.printed }
  else .error .todo

/-- The turn of `define_live_types` for one type. -/
def defineType (g : Gen) (i : TypeId) : Except Panic Gen :=
  if i ∈ g.typeNames then .ok { g with given := .type i :: g.given }
  -- an error context has no name to make a name of
  else if (D.name i).isNone && (D.types i).components.contains .errorContext then .error .todo
  else
    let g' := { g with typeNames := i :: g.typeNames, given := .type i :: g.given }
    if (D.name i).isSome then defineDtor D g' i
    else if D.isPrim i then
      if D.primName i ∈ g.primNames then .ok g'
      else defineDtor D { g' with primNames := D.primName i :: g.primNames } i
    else
      match D.types i with
      | .handle h =>
        match D.types h.resource with
        | .type (.id _) => defineDtor D g' i
        | _ => .ok g'
      | _ => defineDtor D g' i

/-- `define_live_types`. -/
def defineLiveTypes (g : Gen) : List TypeId → Except Panic Gen
  | [] => .ok g
  | i :: live => defineType D g i >>= fun g' => defineLiveTypes g' live

/-- `remove_types_redefined_by_exports`, keeping the types in `keep`. -/
def removeTypes (g : Gen) (keep : TypeId → Bool) : Gen :=
  { g with
    typeNames := g.typeNames.filter keep
    dtorFuncs := fun i => if keep i then g.dtorFuncs i else none
    given := .keep keep :: g.given }

end Gen

/-! ## Names that come again -/

/-- The type has had its turn, and has been kept since. -/
def listed : List Given → TypeId → Bool
  | [], _ => false
  | .type j :: before, i => decide (j = i) || listed before i
  | .keep keep :: before, i => keep i && listed before i

/-- A type of primitives that has the same name has had its turn. -/
def Defs.namedAlike (D : Defs) (before : List Given) (i : TypeId) : Bool :=
  before.any fun
    | .type j => D.isPrim j && decide (D.primName j = D.primName i)
    | .keep _ => false

/-- When the type had its turn, as a type of primitives, its name was there already. -/
def Defs.repeated (D : Defs) : List Given → TypeId → Bool
  | [], _ => false
  | .type j :: before, i =>
    if j = i ∧ listed before i = false then D.isPrim i && D.namedAlike before i
    else D.repeated before i
  | .keep keep :: before, i => keep i && D.repeated before i

/-- What the generator is called for. -/
inductive Call where
  | define (live : List TypeId)
  | remove (keep : TypeId → Bool)

/-- Live types come after their components. -/
def Live (D : Defs) : List TypeId → List TypeId → Prop
  | _, [] => True
  | known, i :: live => (∀ j, .id j ∈ (D.types i).components → j ∈ known) ∧ Live D (i :: known) live

/-- The generator over a world: the types of each import and export are live
types, and what is kept is closed under components. -/
def generator (D : Defs) : System Gen Call Panic where
  init g := g = Gen.initial
  allowed _
    | .define live => Live D [] live
    | .remove keep => ∀ i, keep i = true → ∀ j, .id j ∈ (D.types i).components → keep j = true
  exec g
    | .define live => g.defineLiveTypes D live
    | .remove keep => .ok (g.removeTypes keep)

end WitBindgen.C
