import WitBindgen.C.Dtor
import Mathlib.Data.List.Forall2
import Mathlib.Tactic.Choose

/-!
# What a destructor releases

A destructor is complete for a type when every value of the type has each of its
buffers freed once, and none read after that. Whether the destructor of a
definition is complete depends on those of its components only, and all of them
have to be.
-/

namespace WitBindgen

/-- The members of a record or a tuple. -/
def Shape.fieldShapes : Shape → Option (List Shape)
  | .record fields => some (fields.map (·.2))
  | .tuple types => some types
  | _ => none

/-- The payloads of a variant, an option or a result. -/
def Shape.arms : Shape → Option (List (Option Shape))
  | .variant cases => some (cases.map (·.2))
  | .option payload => some [none, some payload]
  | .result ok err => some [ok, err]
  | _ => none

/-- What C keeps as a scalar: numbers, flags and enums, and handles of any kind. -/
def Shape.isScalar : Shape → Bool
  | .prim _ | .errorContext | .resource _ | .handle _ _ | .flags _ | .enum _ => true
  | .future _ | .stream _ => true
  | _ => false

theorem Shape.of_fields {s : Shape} {ss : List Shape} (h : s.fieldShapes = some ss) :
    s.isScalar = false ∧ s.arms = none := by
  cases s with
  | record | tuple => exact ⟨rfl, rfl⟩
  | _ => cases h

theorem Shape.of_arms {s : Shape} {arms : List (Option Shape)} (h : s.arms = some arms) :
    s.isScalar = false ∧ s.fieldShapes = none := by
  cases s with
  | variant | option | result => exact ⟨rfl, rfl⟩
  | _ => cases h

namespace C

/-! ## Values of a type -/

/-- `HasShape v s`: the C value `v` is of a type of shape `s`. -/
inductive HasShape : CVal → Shape → Prop
  | scalar {s} : s.isScalar = true → HasShape .scalar s
  | string {buf} : HasShape (.string buf) .string
  | struct {s ss vs} : s.fieldShapes = some ss → List.Forall₂ HasShape vs ss →
      HasShape (.struct vs) s
  | bare {s arms i} : s.arms = some arms → arms[i]? = some none → HasShape (.case i .scalar) s
  | case {s arms i t v} : s.arms = some arms → arms[i]? = some (some t) → HasShape v t →
      HasShape (.case i v) s
  | list {s buf vs} : buf.isSome = !vs.isEmpty → (∀ v ∈ vs, HasShape v s) →
      HasShape (.list buf vs) (.list s)
  | map {k s buf es} : buf.isSome = !es.isEmpty → (∀ e ∈ es, HasShape e (.tuple [k, s])) →
      HasShape (.list buf es) (.map k s)
  | fixedLengthList {s n vs} : vs.length = n → (∀ v ∈ vs, HasShape v s) →
      HasShape (.struct vs) (.fixedLengthList s n)

/-- The buffers of a value, those of its members before its own. -/
def CVal.buffers : CVal → List Nat
  | .scalar => []
  | .string buf => buf.toList
  | .list buf vs => (vs.map fun v => v.buffers).flatten ++ buf.toList
  | .struct vs => (vs.map fun v => v.buffers).flatten
  | .case _ v => v.buffers

def Access.freed : Access → Option Nat
  | .free buf => some buf
  | .read _ => none

/-- The buffers that are freed, in order. -/
def freed (accesses : List Access) : List Nat := accesses.filterMap Access.freed

@[simp] theorem freed_nil : freed [] = [] := rfl

@[simp] theorem freed_append (xs ys : List Access) : freed (xs ++ ys) = freed xs ++ freed ys :=
  List.filterMap_append

@[simp] theorem freed_read (buf : Nat) (xs : List Access) : freed (.read buf :: xs) = freed xs :=
  rfl

@[simp] theorem freed_free (buf : Nat) (xs : List Access) :
    freed (.free buf :: xs) = buf :: freed xs := rfl

/-- Nothing is read after it was freed. -/
def ReadFirst (accesses : List Access) : Prop :=
  accesses.Pairwise fun x y => ∀ buf, x = .free buf → y ≠ .read buf

/-- No more is accessed than the value has, and in an order that may be complete. -/
structure Sound (s : Shape) (d : Option Dtor) : Prop where
  frees : ∀ v, HasShape v s → (freed (call d v)).Sublist v.buffers
  reads : ∀ v, HasShape v s → ∀ buf, .read buf ∈ call d v → buf ∈ v.buffers
  order : ∀ v, HasShape v s → v.buffers.Nodup → ReadFirst (call d v)

/-- Every buffer of every value is freed once, and read only before that. -/
def Complete (s : Shape) (d : Option Dtor) : Prop :=
  ∀ v, HasShape v s → (freed (call d v)).Perm v.buffers ∧
    (v.buffers.Nodup → ReadFirst (call d v))

variable {s : Shape} {d : Option Dtor}

theorem Sound.complete_iff (h : Sound s d) :
    Complete s d ↔ ∀ v, HasShape v s → freed (call d v) = v.buffers := by
  constructor
  · intro hc v hv
    exact (h.frees v hv).eq_of_length (hc v hv).1.length_eq
  · intro hc v hv
    exact ⟨by rw [hc v hv], h.order v hv⟩

theorem mem_freed {buf : Nat} {xs : List Access} : buf ∈ freed xs ↔ .free buf ∈ xs := by
  rw [freed, List.mem_filterMap]
  constructor
  · rintro ⟨x, hx, hbuf⟩
    cases x with
    | read b => cases hbuf
    | free b => cases hbuf; exact hx
  · exact fun h => ⟨_, h, rfl⟩

theorem freed_flatten (xss : List (List Access)) :
    freed xss.flatten = (xss.map freed).flatten := by
  induction xss with
  | nil => rfl
  | cons xs xss ih => simp [ih]

/-! ## Parts of a value, one after another -/

/-- What is done for a part with the buffers `bufs`, besides reading in `own`. -/
structure Part (own : Nat → Prop) (xs : List Access) (bufs : List Nat) : Prop where
  frees : (freed xs).Sublist bufs
  reads : ∀ buf, .read buf ∈ xs → buf ∈ bufs ∨ own buf
  order : bufs.Nodup → (∀ buf ∈ bufs, ¬ own buf) → ReadFirst xs

theorem Part.nil {own : Nat → Prop} {bufs : List Nat} : Part own [] bufs :=
  ⟨List.nil_sublist _, nofun, fun _ _ => List.Pairwise.nil⟩

theorem Part.append {own : Nat → Prop} {xs ys : List Access} {as bs : List Nat}
    (hx : Part own xs as) (hy : Part own ys bs) : Part own (xs ++ ys) (as ++ bs) where
  frees := by
    rw [freed_append]
    exact hx.frees.append hy.frees
  reads buf h := by
    rcases List.mem_append.mp h with h | h
    · exact (hx.reads buf h).imp (List.mem_append_left _) id
    · exact (hy.reads buf h).imp (List.mem_append_right _) id
  order hnodup hown := by
    obtain ⟨hnx, hny, hapart⟩ := List.nodup_append.mp hnodup
    refine List.pairwise_append.mpr ⟨hx.order hnx fun b hb => hown b (List.mem_append_left _ hb),
      hy.order hny fun b hb => hown b (List.mem_append_right _ hb), ?_⟩
    rintro x hxs y hys buf rfl rfl
    have hfreed : buf ∈ as := hx.frees.subset (mem_freed.mpr hxs)
    rcases hy.reads buf hys with hb | ho
    · exact hapart buf hfreed buf hb rfl
    · exact hown buf (List.mem_append_left _ hfreed) ho

theorem Part.flatten {own : Nat → Prop} {xss : List (List Access)} {bss : List (List Nat)}
    (h : List.Forall₂ (Part own) xss bss) : Part own xss.flatten bss.flatten := by
  induction h with
  | nil => exact Part.nil
  | cons hhead _ ih => exact hhead.append ih

theorem Sound.part (h : Sound s d) {v : CVal} (hv : HasShape v s) (own : Nat → Prop) :
    Part own (call d v) v.buffers :=
  ⟨h.frees v hv, fun buf hbuf => Or.inl (h.reads v hv buf hbuf), fun hn _ => h.order v hv hn⟩

theorem Sound.inside (h : Sound s d) {v : CVal} (hv : HasShape v s) (buf : Nat) :
    Part (· = buf) (callInside buf d v) v.buffers := by
  cases d with
  | none => exact Part.nil
  | some f =>
    refine ⟨h.frees v hv, fun b hb => ?_, fun hn hown => ?_⟩
    · rcases List.mem_cons.mp hb with heq | hb
      · cases heq
        exact Or.inr rfl
      · exact Or.inl (h.reads v hv b hb)
    · refine List.Pairwise.cons ?_ (h.order v hv hn)
      rintro y - b heq
      cases heq

/-- A part that reads nothing else, as a destructor of the whole. -/
theorem Sound.of_part (h : ∀ v, HasShape v s → Part (fun _ => False) (call d v) v.buffers) :
    Sound s d where
  frees v hv := (h v hv).frees
  reads v hv buf hbuf := ((h v hv).reads buf hbuf).resolve_right id
  order v hv hn := (h v hv).order hn fun _ _ => id

/-- Lists whose parts are no longer are equal only part by part. -/
theorem eq_of_flatten {α : Type} {xss yss : List (List α)} (h : List.Forall₂ List.Sublist xss yss)
    (hlen : xss.flatten = yss.flatten) : xss = yss := by
  induction h with
  | nil => rfl
  | @cons xs ys xss yss hhead htail ih =>
    have hsub : xss.flatten.Sublist yss.flatten := by
      clear ih hlen
      induction htail with
      | nil => exact List.nil_sublist _
      | cons h _ ih => exact h.append ih
    have hsum := congrArg List.length hlen
    rw [List.flatten_cons, List.flatten_cons, List.length_append, List.length_append] at hsum
    have hl := hhead.length_le
    have hr := hsub.length_le
    obtain rfl := hhead.eq_of_length (by omega)
    rw [ih (hsub.eq_of_length (by omega))]

/-! ## Records and tuples -/

theorem call_fieldsBody (ds : List (Option Dtor)) (vs : List CVal) :
    call (fieldsBody ds) (.struct vs) = ((ds.zip vs).map fun x => call x.1 x.2).flatten := by
  rw [fieldsBody]
  split
  · next h =>
      have hnone : ∀ x ∈ ds.zip vs, call x.1 x.2 = [] := by
        intro x hx
        have hd := List.all_eq_true.mp h x.1 (List.of_mem_zip hx).1
        rw [Option.isNone_iff_eq_none.mp hd]
        rfl
      rw [List.map_congr_left hnone]
      simp [call]
  · rw [← List.flatMap_def]
    rfl

section Fields

variable {types : List TypeRef} {shape : TypeRef → Shape} {free : TypeRef → Option Dtor}
variable (hs : s.fieldShapes = some (types.map shape))
include hs

theorem HasShape.members {v : CVal} (h : HasShape v s) :
    ∃ vs, v = .struct vs ∧ List.Forall₂ HasShape vs (types.map shape) := by
  obtain ⟨hscalar, harms⟩ := Shape.of_fields hs
  cases h with
  | struct h' hvs => cases h'.symm.trans hs; exact ⟨_, rfl, hvs⟩
  | scalar h => cases hscalar.symm.trans h
  | bare ha | case ha => cases harms.symm.trans ha
  | _ => cases hs

theorem sound_fieldsBody (hsound : ∀ t ∈ types, Sound (shape t) (free t)) :
    Sound s (fieldsBody (types.map free)) := by
  refine Sound.of_part fun v hv => ?_
  obtain ⟨vs, rfl, hvs⟩ := hv.members hs
  rw [call_fieldsBody, CVal.buffers]
  refine Part.flatten ?_
  clear hs hv
  induction types generalizing vs with
  | nil => cases hvs; exact .nil
  | cons t types ih =>
    cases hvs with
    | cons hv hvs =>
      exact .cons ((hsound t (List.mem_cons_self ..)).part hv _)
        (ih (fun t' ht' => hsound t' (List.mem_cons_of_mem t ht')) _ hvs)

theorem complete_fieldsBody (hsound : ∀ t ∈ types, Sound (shape t) (free t))
    (hvals : ∀ t ∈ types, ∃ v, HasShape v (shape t)) :
    Complete s (fieldsBody (types.map free)) ↔ ∀ t ∈ types, Complete (shape t) (free t) := by
  rw [(sound_fieldsBody hs hsound).complete_iff]
  constructor
  · intro h t ht
    rw [(hsound t ht).complete_iff]
    intro v hv
    choose! sample hsample using hvals
    -- one value for `t`, and any for the others
    let pick t' := if t' = t then v else sample t'
    have hpick : ∀ t' ∈ types, HasShape (pick t') (shape t') := by
      intro t' ht'
      by_cases heq : t' = t
      · simpa [pick, heq] using hv
      · simpa [pick, heq] using hsample t' ht'
    have hvs : HasShape (.struct (types.map pick)) s := by
      refine .struct hs (List.forall₂_map_left_iff.mpr (List.forall₂_map_right_iff.mpr ?_))
      exact List.forall₂_same.mpr hpick
    have hall := h _ hvs
    rw [call_fieldsBody, CVal.buffers, freed_flatten, List.zip_map', List.map_map, List.map_map,
      List.map_map] at hall
    have hparts := eq_of_flatten (List.forall₂_map_left_iff.mpr (List.forall₂_map_right_iff.mpr
      (List.forall₂_same.mpr fun t' ht' => (hsound t' ht').frees _ (hpick t' ht')))) hall
    have hone := List.map_inj_left.mp hparts t ht
    simpa [pick] using hone
  · intro h v hv
    obtain ⟨vs, rfl, hvs⟩ := hv.members hs
    rw [call_fieldsBody, CVal.buffers, freed_flatten, List.map_map]
    congr 1
    clear hs hv
    induction types generalizing vs with
    | nil => cases hvs; rfl
    | cons t types ih =>
      cases hvs with
      | cons hv hvs =>
        have hhead := (hsound t (List.mem_cons_self ..)).complete_iff.mp
          (h t (List.mem_cons_self ..)) _ hv
        have hrest := ih (fun t' ht' => hsound t' (List.mem_cons_of_mem t ht'))
          (fun t' ht' => hvals t' (List.mem_cons_of_mem t ht'))
          (fun t' ht' => h t' (List.mem_cons_of_mem t ht')) _ hvs
        simp only [List.map_cons, List.zip_cons_cons, Function.comp, hhead, hrest] at hrest ⊢

end Fields

/-! ## Variants, options and results -/

section Arms

variable {arms : List (Option TypeRef)} {shape : TypeRef → Shape} {free : TypeRef → Option Dtor}
variable (hs : s.arms = some (arms.map fun o => o.map shape))
include hs

/-- The active case, and whether it has a payload. -/
theorem HasShape.active {v : CVal} (h : HasShape v s) :
    ∃ i, (arms[i]? = some none ∧ v = .case i .scalar) ∨
      ∃ t x, arms[i]? = some (some t) ∧ HasShape x (shape t) ∧ v = .case i x := by
  obtain ⟨hscalar, hfields⟩ := Shape.of_arms hs
  cases h with
  | struct h' => cases hfields.symm.trans h'
  | scalar h => cases hscalar.symm.trans h
  | @bare _ _ i ha hi =>
    cases ha.symm.trans hs
    rw [List.getElem?_map] at hi
    obtain ⟨o, ho, hnone⟩ := Option.map_eq_some_iff.mp hi
    rw [Option.map_eq_none_iff] at hnone
    exact ⟨i, Or.inl ⟨hnone ▸ ho, rfl⟩⟩
  | @case _ _ i t v ha hi hv =>
    cases ha.symm.trans hs
    rw [List.getElem?_map] at hi
    obtain ⟨o, ho, hsome⟩ := Option.map_eq_some_iff.mp hi
    obtain ⟨t', rfl, rfl⟩ := Option.map_eq_some_iff.mp hsome
    exact ⟨i, Or.inr ⟨t', v, ho, hv, rfl⟩⟩
  | _ => cases hs

omit hs in
theorem call_casesBody (i : Nat) (v : CVal) : call (casesBody (arms.map fun o => o.bind free))
    (.case i v) = call ((arms[i]?.join).bind free) v := by
  show call (((arms.map fun o => o.bind free)[i]?).join) v = _
  rw [List.getElem?_map]
  cases arms[i]? with
  | none => rfl
  | some o => rfl

theorem sound_casesBody (hsound : ∀ t, some t ∈ arms → Sound (shape t) (free t)) :
    Sound s (casesBody (arms.map fun o => o.bind free)) := by
  refine Sound.of_part fun v hv => ?_
  obtain ⟨i, ⟨hi, rfl⟩ | ⟨t, x, hi, hx, rfl⟩⟩ := hv.active hs
  · rw [call_casesBody, hi]
    exact Part.nil
  · rw [call_casesBody, hi, CVal.buffers]
    exact (hsound t (List.mem_of_getElem? hi)).part hx _

theorem complete_casesBody (hsound : ∀ t, some t ∈ arms → Sound (shape t) (free t)) :
    Complete s (casesBody (arms.map fun o => o.bind free)) ↔
      ∀ t, some t ∈ arms → Complete (shape t) (free t) := by
  rw [(sound_casesBody hs hsound).complete_iff]
  constructor
  · intro h t ht
    rw [(hsound t ht).complete_iff]
    intro v hv
    obtain ⟨i, hi, hget⟩ := List.getElem_of_mem ht
    have hi : arms[i]? = some (some t) := by rw [List.getElem?_eq_getElem hi, hget]
    have hcase := h (.case i v) (.case hs (by rw [List.getElem?_map, hi]; rfl) hv)
    rw [call_casesBody, hi, CVal.buffers] at hcase
    exact hcase
  · intro h v hv
    obtain ⟨i, ⟨hi, rfl⟩ | ⟨t, x, hi, hx, rfl⟩⟩ := hv.active hs
    · rw [call_casesBody, hi, CVal.buffers, CVal.buffers]
      rfl
    · rw [call_casesBody, hi, CVal.buffers]
      have ht := List.mem_of_getElem? hi
      exact (hsound t ht).complete_iff.mp (h t ht) x hx

end Arms

/-! ## Lists and maps -/

theorem HasShape.elements {v : CVal} (h : HasShape v (.list s)) :
    ∃ buf vs, v = .list buf vs ∧ buf.isSome = !vs.isEmpty ∧ ∀ x ∈ vs, HasShape x s := by
  cases h with
  | list hbuf hvs => exact ⟨_, _, rfl, hbuf, hvs⟩
  | scalar h | struct h | bare h | case h => cases h

theorem HasShape.entries {v : CVal} {k : Shape} (h : HasShape v (.map k s)) :
    ∃ buf es, v = .list buf es ∧ buf.isSome = !es.isEmpty ∧
      ∀ e ∈ es, ∃ x y, e = .struct [x, y] ∧ HasShape x k ∧ HasShape y s := by
  cases h with
  | map hbuf hes =>
    refine ⟨_, _, rfl, hbuf, fun e he => ?_⟩
    cases hes e he with
    | struct h hvs =>
      cases h
      cases hvs with
      | cons hx hvs =>
        cases hvs with
        | cons hy hvs =>
          cases hvs
          exact ⟨_, _, rfl, hx, hy⟩
    | scalar h | bare h | case h => cases h
  | scalar h | struct h | bare h | case h => cases h

/-- A loop over a buffer, and the buffer after it. -/
theorem Part.buffer {xss : List (List Access)} {bss : List (List Nat)} {buf : Nat}
    (h : List.Forall₂ (Part (· = buf)) xss bss) :
    Part (fun _ => False) (xss.flatten ++ [Access.free buf]) (bss.flatten ++ [buf]) := by
  have hloop := Part.flatten h
  refine ⟨?_, fun b hb => ?_, fun hn _ => ?_⟩
  · rw [freed_append]
    exact hloop.frees.append (List.Sublist.refl _)
  · rcases List.mem_append.mp hb with hb | hb
    · left
      rcases hloop.reads b hb with hb | rfl
      · exact List.mem_append_left _ hb
      · simp
    · simp at hb
  · obtain ⟨hne, -, hapart⟩ := List.nodup_append.mp hn
    refine List.pairwise_append.mpr ⟨hloop.order hne fun b hb heq => ?_, List.pairwise_singleton _ _,
      ?_⟩
    · exact hapart b hb buf (by simp) heq
    · rintro x - y hy b - rfl
      simp at hy

theorem sound_listBody (h : Sound s d) : Sound (.list s) (listBody d) := by
  refine Sound.of_part fun v hv => ?_
  obtain ⟨buf, vs, rfl, hbuf, hvs⟩ := hv.elements
  cases buf with
  | none => exact Part.nil
  | some buf =>
    rw [CVal.buffers]
    show Part _ ((vs.flatMap fun v => callInside buf d v) ++ [Access.free buf]) _
    rw [List.flatMap_def]
    refine Part.buffer ?_
    exact List.forall₂_map_left_iff.mpr (List.forall₂_map_right_iff.mpr
      (List.forall₂_same.mpr fun v hv => h.inside (hvs v hv) buf))

theorem freed_callInside (buf : Nat) (d : Option Dtor) (v : CVal) :
    freed (callInside buf d v) = freed (call d v) := by
  cases d <;> rfl

theorem complete_listBody (hsound : Sound s d) :
    Complete (.list s) (listBody d) ↔ Complete s d := by
  rw [(sound_listBody hsound).complete_iff, hsound.complete_iff]
  constructor
  · intro h v hv
    have hlist := h (.list (some 0) [v]) (.list rfl (by simpa using hv))
    have hfreed : freed (callInside 0 d v) ++ [0] = v.buffers ++ [0] := by
      simpa [call, listBody, CVal.buffers] using hlist
    rw [freed_callInside] at hfreed
    exact List.append_cancel_right hfreed
  · intro h v hv
    obtain ⟨buf, vs, rfl, hbuf, hvs⟩ := hv.elements
    cases buf with
    | none =>
      have hnil : vs = [] := by simpa using hbuf
      subst hnil
      simp [call, listBody, CVal.buffers]
    | some buf =>
      have hloop : (vs.map fun v => freed (callInside buf d v)) = vs.map CVal.buffers :=
        List.map_congr_left fun v hv => (freed_callInside buf d v).trans (h v (hvs v hv))
      show freed ((vs.flatMap fun v => callInside buf d v) ++ [Access.free buf]) = _
      rw [freed_append, List.flatMap_def, freed_flatten, List.map_map, CVal.buffers]
      exact congrArg (fun xs => List.flatten xs ++ [buf]) hloop

/-- What is done for one entry. -/
def entryAccesses (buf : Nat) (key value : Option Dtor) : CVal → List Access
  | .struct [k, x] => callInside buf key k ++ callInside buf value x
  | _ => []

theorem call_mapBody (key value : Option Dtor) (buf : Nat) (es : List CVal) :
    call (mapBody key value) (.list (some buf) es) =
      (es.map (entryAccesses buf key value)).flatten ++ [Access.free buf] := by
  rw [← List.flatMap_def]
  rfl

section Map

variable {k : Shape} {key value : Option Dtor} (hk : Sound k key) (hs : Sound s value)
include hk hs

theorem sound_mapBody : Sound (.map k s) (mapBody key value) := by
  refine Sound.of_part fun v hv => ?_
  obtain ⟨buf, es, rfl, hbuf, hes⟩ := hv.entries
  cases buf with
  | none => exact Part.nil
  | some buf =>
    rw [call_mapBody, CVal.buffers]
    refine Part.buffer (List.forall₂_map_left_iff.mpr (List.forall₂_map_right_iff.mpr
      (List.forall₂_same.mpr fun e he => ?_)))
    obtain ⟨x, y, rfl, hx, hy⟩ := hes e he
    have hentry := (hk.inside hx buf).append (hs.inside hy buf)
    simpa [CVal.buffers, entryAccesses] using hentry

theorem complete_mapBody (hx : ∃ v, HasShape v k) (hy : ∃ v, HasShape v s) :
    Complete (.map k s) (mapBody key value) ↔ Complete k key ∧ Complete s value := by
  rw [(sound_mapBody hk hs).complete_iff, hk.complete_iff, hs.complete_iff]
  constructor
  · intro h
    have hpair : ∀ x y, HasShape x k → HasShape y s →
        freed (call key x) = x.buffers ∧ freed (call value y) = y.buffers := by
      intro x y hx hy
      have hentry : HasShape (.struct [x, y]) (.tuple [k, s]) :=
        .struct rfl (.cons hx (.cons hy .nil))
      have hmap := h (.list (some 0) [.struct [x, y]]) (.map rfl (by simpa using hentry))
      rw [call_mapBody] at hmap
      have hpadded : (freed (call key x) ++ freed (call value y)) ++ [0] =
          (x.buffers ++ y.buffers) ++ [0] := by
        simpa [CVal.buffers, entryAccesses, freed_callInside] using hmap
      have hsum := List.append_cancel_right hpadded
      have hparts := eq_of_flatten (.cons (hk.frees x hx) (.cons (hs.frees y hy) .nil))
        (by simpa using hsum)
      rw [List.cons.injEq, List.cons.injEq] at hparts
      exact ⟨hparts.1, hparts.2.1⟩
    obtain ⟨x, hx⟩ := hx
    obtain ⟨y, hy⟩ := hy
    exact ⟨fun v hv => (hpair v y hv hy).1, fun v hv => (hpair x v hx hv).2⟩
  · rintro ⟨hkey, hvalue⟩ v hv
    obtain ⟨buf, es, rfl, hbuf, hes⟩ := hv.entries
    cases buf with
    | none =>
      have hnil : es = [] := by simpa using hbuf
      subst hnil
      simp [call, mapBody, CVal.buffers]
    | some buf =>
      have hloop : (es.map fun e => freed (entryAccesses buf key value e)) =
          es.map CVal.buffers := by
        refine List.map_congr_left fun e he => ?_
        obtain ⟨x, y, rfl, hx, hy⟩ := hes e he
        simp [entryAccesses, freed_callInside, CVal.buffers, hkey x hx, hvalue y hy]
      rw [call_mapBody, freed_append, freed_flatten, List.map_map, CVal.buffers]
      exact congrArg (fun xs => List.flatten xs ++ [buf]) hloop

end Map

/-! ## The destructor of a type -/

theorem complete_scalar (hs : s.isScalar = true) : Sound s none ∧ Complete s none := by
  have hbuffers : ∀ v, HasShape v s → v.buffers = [] := by
    intro v hv
    cases hv with
    | scalar => rw [CVal.buffers]
    | struct h => cases hs.symm.trans (Shape.of_fields h).1
    | bare h | case h => cases hs.symm.trans (Shape.of_arms h).1
    | _ => cases hs
  have hsound : Sound s none := Sound.of_part fun v _ => Part.nil
  refine ⟨hsound, hsound.complete_iff.mpr fun v hv => ?_⟩
  rw [hbuffers v hv]
  rfl

theorem complete_string : Sound .string (some stringFree) ∧ Complete .string (some stringFree) := by
  have hstring : ∀ v, HasShape v .string → ∃ buf, v = .string buf := by
    intro v hv
    cases hv with
    | string => exact ⟨_, rfl⟩
    | scalar h | struct h | bare h | case h => cases h
  have hsound : Sound .string (some stringFree) := by
    refine Sound.of_part fun v hv => ?_
    obtain ⟨buf, rfl⟩ := hstring v hv
    cases buf with
    | none => exact Part.nil
    | some buf =>
      rw [CVal.buffers]
      refine ⟨List.Sublist.refl _, fun b hb => ?_, fun _ _ => List.pairwise_singleton _ _⟩
      simp [call, stringFree] at hb
  refine ⟨hsound, hsound.complete_iff.mpr fun v hv => ?_⟩
  obtain ⟨buf, rfl⟩ := hstring v hv
  rw [CVal.buffers]
  cases buf <;> rfl

/-- Every type has a value. -/
theorem exists_hasShape (D : Defs) (t : TypeRef) : ∃ v, HasShape v (D.shape t) := by
  induction hn : D.weight t using Nat.strongRecOn generalizing t with
  | _ n ih =>
    subst hn
    cases t with
    | prim p => exact ⟨.scalar, .scalar rfl⟩
    | string => exact ⟨.string none, .string⟩
    | errorContext => exact ⟨.scalar, .scalar rfl⟩
    | id i =>
      have sub : ∀ t ∈ (D.types i).components, ∃ v, HasShape v (D.shape t) :=
        fun t ht => ih _ (D.weight_lt ht) t rfl
      have fields : ∀ ts : List TypeRef, (∀ t ∈ ts, ∃ v, HasShape v (D.shape t)) →
          ∃ vs, List.Forall₂ HasShape vs (ts.map D.shape) := by
        intro ts hts
        choose! sample hsample using hts
        exact ⟨ts.map sample, List.forall₂_map_left_iff.mpr (List.forall₂_map_right_iff.mpr
          (List.forall₂_same.mpr hsample))⟩
      have arm : ∀ (s : Shape) (o : Option TypeRef) (arms : List (Option Shape)) (i : Nat), s.arms = some arms →
          arms[i]? = some (o.map D.shape) → (∀ t, o = some t → ∃ v, HasShape v (D.shape t)) →
          ∃ v, HasShape v s := by
        intro s o arms i hs hi ho
        cases o with
        | none => exact ⟨_, .bare hs hi⟩
        | some t =>
          obtain ⟨v, hv⟩ := ho t rfl
          exact ⟨_, .case hs hi hv⟩
      rw [D.shape_id]
      cases hk : D.types i with
      | record fs =>
        rw [hk] at sub
        have hsub : ∀ t ∈ fs.map (·.2), ∃ v, HasShape v (D.shape t) := sub
        obtain ⟨vs, hvs⟩ := fields _ hsub
        refine ⟨.struct vs, .struct ?_ hvs⟩
        simp [TypeDefKind.shape, Shape.fieldShapes]
      | tuple ts =>
        rw [hk] at sub
        obtain ⟨vs, hvs⟩ := fields ts sub
        exact ⟨.struct vs, .struct rfl hvs⟩
      | variant cases' =>
        rw [hk] at sub
        cases hc : cases' with
        | nil => exact absurd hc (D.variants i cases' hk)
        | cons c cs =>
          refine arm _ c.2 (((c :: cs).map fun x => (x.1, x.2.map D.shape)).map (·.2)) 0 rfl
            rfl fun t ht => sub t ?_
          rw [hc]
          exact List.mem_flatMap.mpr ⟨c, List.mem_cons_self .., by simp [ht]⟩
      | option t => exact arm _ none [none, some (D.shape t)] 0 rfl rfl (by simp)
      | result ok err =>
        rw [hk] at sub
        refine arm _ ok [ok.map D.shape, err.map D.shape] 0 rfl rfl fun t ht => sub t ?_
        exact List.mem_append_left _ (by simp [ht])
      | list t => exact ⟨.list none [], .list rfl (by simp)⟩
      | map k v => exact ⟨.list none [], .map rfl (by simp)⟩
      | fixedLengthList t n =>
        rw [hk] at sub
        obtain ⟨v, hv⟩ := sub t (List.mem_singleton_self t)
        refine ⟨.struct (List.replicate n v), .fixedLengthList (by simp) fun x hx => ?_⟩
        rw [List.eq_of_mem_replicate hx]
        exact hv
      | type t =>
        rw [hk] at sub
        exact sub t (List.mem_singleton_self t)
      | unknown => exact absurd hk (D.known i)
      | _ => exact ⟨.scalar, .scalar rfl⟩

section Definition

variable {D : Defs} {i : TypeId} {free : TypeRef → Option Dtor}

variable (D free) in
/-- The destructor frees no more than there is, and all of it exactly if those
of `ts` do. -/
def MadeOf (s : Shape) (d : Option Dtor) (ts : List TypeRef) : Prop :=
  Sound s d ∧ (Complete s d ↔ ∀ t ∈ ts, Complete (D.shape t) (free t))

theorem madeOf_scalar (hs : s.isScalar = true) : MadeOf D free s none [] :=
  ⟨(complete_scalar hs).1, fun _ => nofun, fun _ => (complete_scalar hs).2⟩

theorem madeOf_fields {ts : List TypeRef} (hs : s.fieldShapes = some (ts.map D.shape))
    (hsound : ∀ t ∈ ts, Sound (D.shape t) (free t)) :
    MadeOf D free s (fieldsBody (ts.map free)) ts :=
  ⟨sound_fieldsBody hs hsound, complete_fieldsBody hs hsound fun t _ => exists_hasShape D t⟩

theorem madeOf_cases {arms : List (Option TypeRef)} {ts : List TypeRef}
    (hs : s.arms = some (arms.map fun o => o.map D.shape)) (hts : ∀ t, t ∈ ts ↔ some t ∈ arms)
    (hsound : ∀ t ∈ ts, Sound (D.shape t) (free t)) :
    MadeOf D free s (casesBody (arms.map fun o => o.bind free)) ts := by
  have hsound' := fun t ht => hsound t ((hts t).mpr ht)
  refine ⟨sound_casesBody hs hsound', (complete_casesBody hs hsound').trans ?_⟩
  exact forall_congr' fun t => imp_congr (hts t).symm Iff.rfl

variable (hself : free (.id i) = none)
variable (hresource : ∀ j k, D.shape (.id j) = .resource k → free (.id j) = none)
variable (hsound : ∀ t ∈ freedTypes (D.types i), Sound (D.shape t) (free t))
include hself hresource hsound

/-- A definition's destructor is made of those of the types it frees. -/
theorem dtorBody_madeOf (hfixed : ∀ t n, D.types i ≠ .fixedLengthList t n) :
    MadeOf D free (D.shape (.id i)) (dtorBody i free (D.types i)) (freedTypes (D.types i)) := by
  rw [D.shape_id]
  cases hk : D.types i with
  | record fs =>
    rw [hk] at hsound
    have hbody : dtorBody i free (.record fs) = fieldsBody ((fs.map (·.2)).map free) := by
      rw [List.map_map]
      rfl
    rw [hbody]
    exact madeOf_fields (by simp [TypeDefKind.shape, Shape.fieldShapes]) hsound
  | tuple ts =>
    rw [hk] at hsound
    exact madeOf_fields rfl hsound
  | variant cases' =>
    rw [hk] at hsound
    have hbody : dtorBody i free (.variant cases') =
        casesBody ((cases'.map (·.2)).map fun o => o.bind free) := by
      rw [List.map_map]
      rfl
    rw [hbody]
    refine madeOf_cases ?_ (fun t => ?_) hsound
    · simp [TypeDefKind.shape, Shape.arms]
    · simp [freedTypes, TypeDefKind.components]
  | option t =>
    rw [hk] at hsound
    have hs : (TypeDefKind.shape i D.shape (.option t)).arms =
      some ([none, some t].map fun o => o.map D.shape) := rfl
    exact madeOf_cases hs (fun t' => by simp [freedTypes, TypeDefKind.components]) hsound
  | result ok err =>
    rw [hk] at hsound
    have hs : (TypeDefKind.shape i D.shape (.result ok err)).arms =
      some ([ok, err].map fun o => o.map D.shape) := rfl
    exact madeOf_cases hs (fun t => by simp [freedTypes, TypeDefKind.components, eq_comm]) hsound
  | list t =>
    rw [hk] at hsound
    have ht := hsound t (List.mem_singleton_self t)
    refine ⟨sound_listBody ht, (complete_listBody ht).trans ?_⟩
    exact ⟨fun h t' ht' => List.mem_singleton.mp ht' ▸ h, fun h => h t (List.mem_singleton_self t)⟩
  | map k v =>
    rw [hk] at hsound
    have hkey := hsound k (List.mem_cons_self ..)
    have hvalue := hsound v (List.mem_cons_of_mem k (List.mem_singleton_self v))
    refine ⟨sound_mapBody hkey hvalue, (complete_mapBody hkey hvalue (exists_hasShape D k)
      (exists_hasShape D v)).trans ?_⟩
    refine ⟨fun h t ht => ?_, fun h => ⟨h k (List.mem_cons_self ..),
      h v (List.mem_cons_of_mem k (List.mem_singleton_self v))⟩⟩
    rcases List.mem_pair.mp ht with rfl | rfl
    · exact h.1
    · exact h.2
  | type t =>
    rw [hk] at hsound
    exact ⟨hsound t (List.mem_singleton_self t), fun h t' ht' => List.mem_singleton.mp ht' ▸ h,
      fun h => h t (List.mem_singleton_self t)⟩
  | handle h =>
    obtain ⟨k, hshape⟩ := D.handles i h hk
    have hnone : free (.id h.resource) = none := hresource _ k hshape
    have hbody : dtorBody i free (.handle h) = none := hnone
    rw [hbody]
    refine ⟨(complete_scalar rfl).1, fun _ t ht => ?_, fun _ => (complete_scalar rfl).2⟩
    obtain rfl := List.mem_singleton.mp ht
    rw [hnone, hshape]
    exact (complete_scalar rfl).2
  | flags names | enum names | resource => exact madeOf_scalar rfl
  | future t | stream t =>
    have hbody : dtorBody i free (.future t) = none := hself
    exact hbody ▸ madeOf_scalar rfl
  | fixedLengthList t n => exact absurd hk (hfixed t n)
  | unknown => exact absurd hk (D.known i)

end Definition

end C

end WitBindgen
