import WitBindgen.Wit.Resolve

/-!
# Structure of a type

What is left of a type when names of types are forgotten: aliases are peeled,
members keep their names and order, and a resource stands for itself. Two types
are structurally equal when they have the same shape, so structural equality is
an equivalence relation by construction.
-/

namespace WitBindgen

inductive Shape where
  | prim (p : Prim)
  | string
  | errorContext
  | resource (id : TypeId)
  | record (fields : List (String × Shape))
  | handle (own : Bool) (resource : Shape)
  | flags (flags : List String)
  | tuple (types : List Shape)
  | variant (cases : List (String × Option Shape))
  | enum (cases : List String)
  | option (payload : Shape)
  | result (ok err : Option Shape)
  | list (element : Shape)
  | map (key value : Shape)
  | fixedLengthList (element : Shape) (size : Nat)
  | future (payload : Option Shape)
  | stream (payload : Option Shape)
  | unknown

/-- The shape of a definition, given the shapes of what it refers to. -/
def TypeDefKind.shape (i : TypeId) (f : TypeRef → Shape) : TypeDefKind → Shape
  | .record fields => .record (fields.map fun x => (x.1, f x.2))
  | .resource => .resource i
  | .handle h => .handle h.isOwn (f (.id h.resource))
  | .flags names => .flags names
  | .tuple types => .tuple (types.map f)
  | .variant cases => .variant (cases.map fun x => (x.1, x.2.map f))
  | .enum cases => .enum cases
  | .option t => .option (f t)
  | .result ok err => .result (ok.map f) (err.map f)
  | .list t => .list (f t)
  | .map k v => .map (f k) (f v)
  | .fixedLengthList t n => .fixedLengthList (f t) n
  | .future t => .future (t.map f)
  | .stream t => .stream (t.map f)
  | .type t => f t
  | .unknown => .unknown

/-- Only the shapes of components matter. -/
theorem TypeDefKind.shape_congr {i : TypeId} {f g : TypeRef → Shape} {k : TypeDefKind}
    (h : ∀ t ∈ k.components, f t = g t) : k.shape i f = k.shape i g := by
  cases k with
  | record fields =>
    have hfields : fields.map (fun x => (x.1, f x.2)) = fields.map fun x => (x.1, g x.2) :=
      List.map_congr_left fun x hx => by rw [h x.2 (List.mem_map_of_mem hx)]
    simp only [shape, hfields]
  | handle hd => simp only [shape, h _ List.mem_cons_self]
  | tuple types =>
    have htypes : types.map f = types.map g := List.map_congr_left h
    simp only [shape, htypes]
  | variant cases =>
    have hcases : cases.map (fun x => (x.1, x.2.map f)) =
        cases.map fun x => (x.1, x.2.map g) := by
      refine List.map_congr_left fun x hx => ?_
      obtain ⟨n, o⟩ := x
      cases o with
      | none => rfl
      | some t => simp [h t (List.mem_flatMap.mpr ⟨_, hx, by simp⟩)]
    simp only [shape, hcases]
  | result ok err =>
    have hok : ok.map f = ok.map g := Option.map_congr fun t ht =>
      h t (List.mem_append_left _ (by simpa using ht))
    have herr : err.map f = err.map g := Option.map_congr fun t ht =>
      h t (List.mem_append_right _ (by simpa using ht))
    simp only [shape, hok, herr]
  | future o | stream o =>
    have ho : o.map f = o.map g := Option.map_congr fun t ht =>
      h t (by simpa [components] using ht)
    simp only [shape, ho]
  | option t | list t | fixedLengthList t n | type t => simp only [shape, h t List.mem_cons_self]
  | map k v =>
    simp only [shape, h k List.mem_cons_self, h v (List.mem_cons_of_mem _ List.mem_cons_self)]
  | _ => rfl

namespace Resolve

variable (r : Resolve)

/-- The shape of a type, looked into `n` definitions deep. -/
def shapeTo : Nat → TypeRef → Shape
  | _, .prim p => .prim p
  | _, .string => .string
  | _, .errorContext => .errorContext
  | 0, .id _ => .unknown
  | n + 1, .id i => (r.types i).shape i (shapeTo n)

def shape (t : TypeRef) : Shape := r.shapeTo (r.weight t) t

/-- Looking deeper than a type is changes nothing. -/
theorem shapeTo_stable {n m : Nat} {t : TypeRef} (hn : r.weight t ≤ n) (hm : r.weight t ≤ m) :
    r.shapeTo n t = r.shapeTo m t := by
  induction n generalizing m t with
  | zero =>
    cases t with
    | id i => cases hn
    | _ => cases m <;> rfl
  | succ n ih =>
    cases t with
    | id i =>
      cases m with
      | zero => cases hm
      | succ m =>
        refine TypeDefKind.shape_congr fun t ht => ?_
        have hlt := r.weight_lt ht
        exact ih (by omega) (by omega)
    | _ => cases m <;> rfl

theorem shape_id (i : TypeId) : r.shape (.id i) = (r.types i).shape i r.shape := by
  show (r.types i).shape i (r.shapeTo (r.rank i)) = _
  exact TypeDefKind.shape_congr fun t ht =>
    r.shapeTo_stable (Nat.lt_succ_iff.mp (r.weight_lt ht)) (Nat.le_refl _)

theorem shape_type {i : TypeId} {t : TypeRef} (h : r.types i = .type t) :
    r.shape (.id i) = r.shape t := by
  rw [shape_id, h]
  rfl

/-- Only aliases have the shape of a type that has no definition. -/
theorem shape_ne_of_ne {i : TypeId} (h : ∀ t, r.types i ≠ .type t) :
    (∀ p, r.shape (.id i) ≠ r.shape (.prim p)) ∧ r.shape (.id i) ≠ r.shape .string ∧
      r.shape (.id i) ≠ r.shape .errorContext := by
  rw [shape_id]
  cases hk : r.types i with
  | type t => exact absurd hk (h t)
  | _ => simp [TypeDefKind.shape, shape, shapeTo]

end Resolve

end WitBindgen
