import WitBindgen.Abi.Phases
import WitBindgen.Wit.Endpoints

/-!
# What a traversal asks of its backend

Most instructions leave the state of some backends alone, whatever they write. Those on
which such a backend acts, `acts`, are the ones for futures and streams and the calls. An
emitter `Traces` a list of these instructions where they are, in order, all that it emits of
them: lowering, lifting and deallocating a type each emit one instruction for each future
and stream in it, from left to right.
-/

namespace WitBindgen

namespace Instruction

def acts : Instruction → Bool
  | futureLower _ _ | futureLift _ _ | streamLower _ _ | streamLift _ _
  | callWasm _ _ | callInterface _ _ | asyncTaskReturn _ _ => true
  | _ => false

def lowerEndpoint (e : Endpoint) : Instruction :=
  match e.kind with
  | .future => futureLower e.payload e.ty
  | .stream => streamLower e.payload e.ty

def liftEndpoint (e : Endpoint) : Instruction :=
  match e.kind with
  | .future => futureLift e.payload e.ty
  | .stream => streamLift e.payload e.ty

end Instruction

/-- What lowers, or lifts, the futures and streams of a type. -/
def Ty.asks (f : Endpoint → Instruction) (ty : Ty) : List Instruction := ty.endpoints.map f

/-- No future or stream is in a fixed-length list, outside the payload of another. -/
inductive Ty.Apart : Ty → Prop where
  | intro {ty} : (∀ id t n, ty = .fixedLengthList id t n → t.endpoints = []) →
      (∀ t ∈ ty.children, Apart t) → Apart ty

theorem Ty.asks_fields {f : Endpoint → Instruction} {ty : Ty} {types : List Ty}
    (h : ty.fieldTypes = some types) : ty.asks f = types.flatMap (asks f) := by
  rw [asks, endpoints_fields h, List.map_flatMap]
  rfl

theorem Ty.asks_arms {f : Endpoint → Instruction} {ty : Ty} {arms : List (Option Ty)}
    (h : ty.arms = some arms) : ty.asks f = arms.flatMap (·.elim [] (asks f)) := by
  rw [asks, endpoints_arms h, List.map_flatMap]
  refine List.flatMap_congr fun o _ => ?_
  cases o <;> rfl

theorem Ty.asks_part {f : Endpoint → Instruction} {ty t : Ty} (h : ty.endpoint? = none)
    (hparts : ty.children = [t]) : ty.asks f = t.asks f := by
  rw [asks, endpoints_children h, hparts, List.flatMap_singleton]
  rfl

theorem Ty.asks_nil {f : Endpoint → Instruction} {ty : Ty} (h : ty.endpoint? = none)
    (hparts : ty.children = []) : ty.asks f = [] := by
  rw [asks, endpoints_children h, hparts]
  rfl

theorem Ty.asks_map {f : Endpoint → Instruction} (id : TypeId) (k v : Ty) :
    (Ty.map id k v).asks f = k.asks f ++ v.asks f := by
  rw [asks, endpoints_children rfl, List.flatMap_def]
  change ([k.endpoints, v.endpoints].flatten).map f = _
  rw [List.flatten_cons, List.flatten_cons, List.flatten_nil, List.append_nil, List.map_append]
  rfl

theorem Ty.Apart.fixed {id : TypeId} {t : Ty} {n : Nat} (h : (Ty.fixedLengthList id t n).Apart) :
    t.endpoints = [] ∧ t.Apart := by
  cases h with
  | intro hfixed hparts => exact ⟨hfixed id t n rfl, hparts t List.mem_cons_self⟩

theorem Ty.Apart.part {ty t : Ty} (h : ty.Apart) (ht : t ∈ ty.children) : t.Apart := by
  cases h with
  | intro _ hparts => exact hparts t ht

theorem Ty.Apart.field {ty t : Ty} {types : List Ty} (h : ty.Apart)
    (hf : ty.fieldTypes = some types) (ht : t ∈ types) : t.Apart :=
  h.part (Ty.children_fields hf ▸ ht)

theorem Ty.Apart.arm {ty t : Ty} {arms : List (Option Ty)} (h : ty.Apart)
    (ha : ty.arms = some arms) (ht : some t ∈ arms) : t.Apart :=
  h.part (Ty.children_arms ha ▸ List.reduceOption_mem_iff.2 ht)

namespace Generator

variable {W : WitParser} {B : Bindgen} {α β : Type}

/-- A backend whose state changes with the instructions it acts on, as `act` says, and with
nothing else. It fails of itself only where `act` does. -/
structure Acts (W : WitParser) (B : Bindgen) (act : B.State → Instruction → Except Panic B.State) :
    Prop where
  emit : ∀ {i ops s rs s'}, ops.length = i.operandsLen W → B.emit i ops s = .ok (rs, s') →
    i.acts → act s i = .ok s'
  idle : ∀ {i ops s rs s'}, B.emit i ops s = .ok (rs, s') → i.acts = false → s' = s
  failed : ∀ {i ops s}, ops.length = i.operandsLen W → B.emit i ops s = .error .backend →
    i.acts ∧ act s i = .error .backend
  returnPointer : ∀ {size align s}, ∃ x, B.returnPointer size align s = .ok (x, s)
  pushBlock : ∀ {s}, B.pushBlock s = .ok s
  finishBlock : ∀ {ops s}, B.finishBlock ops s = .ok s
  canonical : ∀ {t}, B.isListCanonical t → t.endpoints = []

/-- Of the instructions the backend acts on, `g` emits `is`, in this order, and what it
returns satisfies `R`. -/
def Traces (act : B.State → Instruction → Except Panic B.State) (R : α → Prop)
    (is : List Instruction) (g : Gen B α) : Prop :=
  ∀ s, (∀ x s', g s = .ok (x, s') → R x ∧ is.foldlM act s.bindgen = .ok s'.bindgen) ∧
    (g s = .error .backend → is.foldlM act s.bindgen = .error .backend)

/-- An emitter of which only the instructions matter. -/
abbrev Asks (act : B.State → Instruction → Except Panic B.State) (is : List Instruction)
    (g : Gen B α) : Prop := Traces act (fun _ => True) is g

namespace Traces

variable {act : B.State → Instruction → Except Panic B.State} {R : α → Prop} {R' : β → Prop}
  {is js : List Instruction}

theorem bind {g : Gen B α} {f : α → Gen B β} (hg : Traces act R is g)
    (hf : ∀ x, R x → Traces act R' js (f x)) : Traces act R' (is ++ js) (g >>= f) := by
  intro s
  rw [List.foldlM_append]
  constructor
  · intro y s' h
    obtain ⟨x, s₁, h₁, h₂⟩ := bind_inv h
    obtain ⟨hx, hrun⟩ := (hg s).1 x s₁ h₁
    rw [hrun]
    exact (hf x hx s₁).1 y s' h₂
  · intro h
    change (g s >>= fun p => f p.1 p.2) = _ at h
    cases hgs : g s with
    | error p =>
      rw [hgs] at h
      cases h
      rw [(hg s).2 hgs]
      rfl
    | ok p =>
      rw [hgs] at h
      obtain ⟨hx, hrun⟩ := (hg s).1 p.1 p.2 hgs
      rw [hrun]
      exact (hf _ hx p.2).2 h

/-- A step that asks nothing, and then `f`. -/
theorem quiet {g : Gen B α} {f : α → Gen B β} (hg : Traces act R [] g)
    (hf : ∀ x, R x → Traces act R' is (f x)) : Traces act R' is (g >>= f) := hg.bind hf

theorem and_then {g : Gen B α} {f : α → Gen B β} (hg : Asks act is g)
    (hf : ∀ x, Traces act R' js (f x)) : Traces act R' (is ++ js) (g >>= f) :=
  hg.bind fun x _ => hf x

theorem silent {g : Gen B α} {f : α → Gen B β} (hg : Asks act [] g)
    (hf : ∀ x, Traces act R' is (f x)) : Traces act R' is (g >>= f) := hg.bind fun x _ => hf x

/-- `g`, and then a step that asks nothing. -/
theorem finally_ {g : Gen B α} {f : α → Gen B β} (hg : Asks act is g)
    (hf : ∀ x, Traces act R' [] (f x)) : Traces act R' is (g >>= f) := by
  rw [← List.append_nil is]
  exact hg.and_then hf

theorem pure {x : α} (h : R x) : Traces act R [] (Pure.pure x : Gen B α) := by
  refine fun s => ⟨?_, nofun⟩
  rintro y s' ⟨⟩
  exact ⟨h, rfl⟩

theorem done : Asks act [] (Pure.pure () : Gen B Unit) := pure trivial

theorem panic {p : Panic} (h : p ≠ .backend) :
    Traces act R is (Generator.panic p : Gen B α) := by
  refine fun s => ⟨nofun, fun hp => ?_⟩
  cases hp
  exact absurd rfl h

theorem ite {c : Prop} [Decidable c] {g g' : Gen B α} (h : Traces act R is g)
    (h' : Traces act R is g') : Traces act R is (if c then g else g') := by
  split
  · exact h
  · exact h'

theorem assert (b : Bool) : Asks act [] (Generator.assert b : Gen B Unit) := by
  cases b with
  | true => exact done
  | false => exact panic nofun

theorem orPanic {p : Panic} (h : p ≠ .backend) (o : Option α) :
    Traces act (· ∈ o) [] (Generator.orPanic p o : Gen B α) := by
  cases o with
  | none => exact panic h
  | some x => exact pure rfl

/-- A step that does not touch the backend. -/
theorem of_frame {g : Gen B α} (h : ∀ s x s', g s = .ok (x, s') → R x ∧ s'.bindgen = s.bindgen)
    (h' : ∀ s, g s ≠ .error .backend) : Traces act R [] g := by
  refine fun s => ⟨fun x s' hg => ?_, fun hg => absurd hg (h' s)⟩
  obtain ⟨hx, hs⟩ := h s x s' hg
  exact ⟨hx, congrArg Except.ok hs.symm⟩

theorem push (x : B.Operand) : Asks act [] (Generator.push x) :=
  of_frame (fun _ _ _ h => by cases h; exact ⟨trivial, rfl⟩) nofun

theorem extend (xs : List B.Operand) : Asks act [] (Generator.extend xs) :=
  of_frame (fun _ _ _ h => by cases h; exact ⟨trivial, rfl⟩) nofun

theorem pop : Asks act [] (Generator.pop : Gen B B.Operand) := by
  refine of_frame (fun s x s' h => ?_) fun s h => ?_
  · unfold Generator.pop at h
    split at h <;> cases h
    exact ⟨trivial, rfl⟩
  · unfold Generator.pop at h
    split at h <;> cases h

theorem drain (n : Nat) :
    Traces act (·.length = n) [] (Generator.drain n : Gen B (List B.Operand)) := by
  refine of_frame (fun s x s' h => ?_) fun s h => ?_
  · unfold Generator.drain at h
    split at h <;> cases h
    next hle => exact ⟨by rw [List.length_drop]; omega, rfl⟩
  · unfold Generator.drain at h
    split at h <;> cases h

theorem setRealloc (r : Option Realloc) :
    Asks act [] (Generator.setRealloc r : Gen B Unit) :=
  of_frame (fun _ _ _ h => by cases h; exact ⟨trivial, rfl⟩) nofun

theorem setReturnPointer (p : Option B.Operand) :
    Asks act [] (Generator.setReturnPointer p : Gen B Unit) :=
  of_frame (fun _ _ _ h => by cases h; exact ⟨trivial, rfl⟩) nofun

theorem takeReturnPointer :
    Asks act [] (Generator.takeReturnPointer : Gen B B.Operand) := by
  refine of_frame (fun s x s' h => ?_) fun s h => ?_
  · unfold Generator.takeReturnPointer at h
    split at h <;> cases h
    exact ⟨trivial, rfl⟩
  · unfold Generator.takeReturnPointer at h
    split at h <;> cases h

theorem listRealloc :
    Asks act [] (Generator.listRealloc : Gen B (Option String)) := by
  refine of_frame (fun s x s' h => ?_) fun s h => ?_
  · unfold Generator.listRealloc at h
    split at h <;> cases h <;> exact ⟨trivial, rfl⟩
  · unfold Generator.listRealloc at h
    split at h <;> cases h

theorem stackLen : Asks act [] (Generator.stackLen : Gen B Nat) :=
  of_frame (fun _ _ _ h => by cases h; exact ⟨trivial, rfl⟩) nofun

theorem assertEmptyStack : Asks act [] (Generator.assertEmptyStack : Gen B Unit) :=
  stackLen.silent fun _ => assert _

theorem flatTypes (ty : Ty) :
    Asks act [] (Generator.flatTypes W ty : Gen B (List WasmType)) := by
  unfold Generator.flatTypes
  cases W.flatTypes ty none with
  | none => exact panic nofun
  | some _ => exact pure trivial

theorem valueOffset (key value : Ty) :
    Asks act [] (Generator.valueOffset W key value : Gen B _) := by
  unfold Generator.valueOffset
  cases (W.fieldOffsets [key, value])[1]?.map (·.1) with
  | none => exact panic nofun
  | some _ => exact pure trivial

theorem slice (i : Nat) (xs : List B.Operand) :
    Asks act [] (Generator.slice i xs) := ite (pure trivial) (panic nofun)

theorem forM {ι : Type} {xs : List ι} {f : ι → Gen B PUnit} {ask : ι → List Instruction}
    (h : ∀ x ∈ xs, Asks act (ask x) (f x)) :
    Asks act (xs.flatMap ask) (xs.forM f) := by
  induction xs with
  | nil => exact pure trivial
  | cons x xs ih =>
    rw [List.flatMap_cons]
    exact (h x List.mem_cons_self).and_then fun _ =>
      ih fun y hy => h y (List.mem_cons_of_mem _ hy)

/-- A loop that asks nothing. -/
theorem forM_silent {ι : Type} {xs : List ι} {f : ι → Gen B PUnit}
    (h : ∀ x ∈ xs, Asks act [] (f x)) :
    Asks act [] (xs.forM f) := by
  have hloop : Asks act (xs.flatMap fun _ => []) (xs.forM f) := forM h
  rwa [List.flatMap_eq_nil_iff.mpr fun _ _ => rfl] at hloop

theorem lowerEach {ι : Type} {xs : List ι} {f : ι → Gen B Unit} {ask : ι → List Instruction}
    (h : ∀ x ∈ xs, Asks act (ask x) (f x)) {values : List B.Operand}
    (hlen : values.length = xs.length) :
    Asks act (xs.flatMap ask) (lowerEach (xs.map f) values) := by
  induction xs generalizing values with
  | nil => exact pure trivial
  | cons x xs ih =>
    obtain ⟨v, values, rfl⟩ := List.exists_cons_of_length_eq_add_one hlen
    rw [List.flatMap_cons]
    refine Traces.and_then (g := do Generator.push v; f x) ((push v).silent fun _ =>
      h x List.mem_cons_self) fun _ => ih (fun y hy => h y (List.mem_cons_of_mem _ hy)) ?_
    simpa using hlen

section
variable (hact : Acts W B act)
include hact

theorem emit_acts {i : Instruction} (hi : i.acts) :
    Asks act [i] (Generator.emit W i : Gen B Unit) := by
  intro s
  rw [List.foldlM_cons]
  constructor
  · intro x s' h
    obtain ⟨below, ops, results, -, hlen, hemit, -, -⟩ := emit_inv h
    rw [hact.emit hlen hemit hi]
    exact ⟨trivial, rfl⟩
  · intro h
    unfold Generator.emit at h
    dsimp only at h
    split at h
    · next hle =>
      split at h
      · next p hemit =>
          cases h
          rw [(hact.failed (by rw [List.length_drop, Nat.sub_sub_self hle]) hemit).2]
          rfl
      · split at h <;> cases h
    · cases h

theorem emit {i : Instruction} (hi : i.acts = false) :
    Asks act [] (Generator.emit W i : Gen B Unit) := by
  refine of_frame (fun s x s' h => ?_) fun s h => ?_
  · obtain ⟨below, ops, results, -, -, hemit, -, -⟩ := emit_inv h
    exact ⟨trivial, hact.idle hemit hi⟩
  · unfold Generator.emit at h
    dsimp only at h
    split at h
    · next hle =>
      split at h
      · next p hemit =>
          cases h
          have hlen := hact.failed (by rw [List.length_drop, Nat.sub_sub_self hle]) hemit
          exact absurd (hi.symm.trans hlen.1) Bool.false_ne_true
      · split at h <;> cases h
    · cases h

theorem returnPointer (size : ArchitectureSize) (align : Alignment) :
    Asks act [] (Generator.returnPointer size align : Gen B B.Operand) := by
  have hrun : ∀ s : GenState B, ∃ x, Generator.returnPointer size align s = .ok (x, s) := by
    intro s
    obtain ⟨x, hx⟩ : ∃ x, B.returnPointer size align s.bindgen = .ok (x, s.bindgen) :=
      hact.returnPointer
    exact ⟨x, by rw [Generator.returnPointer, hx]⟩
  refine of_frame (fun s x s' h => ?_) fun s h => ?_
  · obtain ⟨y, hy⟩ := hrun s
    cases hy.symm.trans h
    exact ⟨trivial, rfl⟩
  · obtain ⟨y, hy⟩ := hrun s
    cases hy.symm.trans h

theorem block (size : Nat) {body : Gen B Unit} (h : Asks act is body) :
    Asks act is (Generator.block size body) := by
  have hpush : Asks act [] (Generator.pushBlock : Gen B Unit) := by
    refine of_frame (fun s x s' h => ?_) fun s h => ?_
    · rw [Generator.pushBlock, hact.pushBlock] at h
      cases h
      exact ⟨trivial, rfl⟩
    · rw [Generator.pushBlock, hact.pushBlock] at h
      cases h
  have hfinish : Asks act [] (Generator.finishBlock size : Gen B Unit) := by
    refine of_frame (fun s x s' h => ?_) fun s h => ?_
    · rw [Generator.finishBlock, hact.finishBlock] at h
      split at h <;> cases h
      exact ⟨trivial, rfl⟩
    · rw [Generator.finishBlock, hact.finishBlock] at h
      split at h <;> cases h
  exact hpush.silent fun _ => h.finally_ fun _ => hfinish

end

/-! ## Fields and arms -/

section
variable {ask : Ty → List Instruction} {types : List Ty} {arms : List (Option Ty)}

/-- A loop over things that each come with a type, in the order of the types. -/
theorem forM_types {ι γ : Type} {xs : List ι} {f : ι → Gen B PUnit} (g : ι → γ) {ys : List γ}
    {ask : γ → List Instruction} (hxs : xs.map g = ys)
    (h : ∀ x ∈ xs, Asks act (ask (g x)) (f x)) :
    Asks act (ys.flatMap ask) (xs.forM f) := by
  rw [← hxs, List.flatMap_map]
  exact forM h

theorem map_members {γ : Type} (types : List Ty) (f : Ty → γ) :
    (types.map fun t => (t, f t)).map Prod.fst = types := by
  rw [List.map_map]
  exact List.map_id types

theorem map_arms {γ : Type} (arms : List (Option Ty)) (f : Ty → γ) :
    (arms.map fun o => o.map fun t => (t, f t)).map (Option.map Prod.fst) = arms := by
  rw [List.map_map]
  refine (List.map_congr_left fun o _ => ?_).trans (List.map_id arms)
  cases o <;> rfl

theorem zipIdx_arms {γ : Type} (arms : List (Option Ty)) (f : Ty → γ) :
    (arms.map fun o => o.map fun t => (t, f t)).zipIdx.map (Option.map Prod.fst ∘ Prod.fst) =
      arms := by
  rw [← List.map_map, List.zipIdx_map_fst, map_arms]

theorem zip_offsets {p : Nat} (hW : W.Lawful p) {γ : Type} (members : List (Ty × γ)) :
    (((W.fieldOffsets (members.map (·.1))).map (·.1)).zip members).map Prod.snd = members := by
  have hlen := congrArg List.length (hW.fieldOffsets_types (members.map (·.1)))
  rw [List.length_map, List.length_map] at hlen
  exact List.map_snd_zip (Nat.le_of_eq (by rw [List.length_map, hlen]))

theorem forEachField {p : Nat} (hW : W.Lawful p) {f : Ty → B.Operand → ArchitectureSize → Gen B Unit}
    (h : ∀ t ∈ types, ∀ a o, Asks act (ask t) (f t a o)) (addr : B.Operand)
    (offset : ArchitectureSize) : Asks act (types.flatMap ask)
      (forEachField W (types.map fun t => (t, f t)) addr offset) := by
  refine forM_types (Prod.fst ∘ Prod.snd) ?_ fun x hx => ?_
  · rw [← List.map_map, zip_offsets hW, map_members]
  · obtain ⟨t, ht, hx'⟩ := List.mem_map.mp (List.of_mem_zip hx).2
    obtain ⟨o, m⟩ := x
    cases hx'
    exact h t ht _ _

theorem writeFieldsToMemory {p : Nat} (hW : W.Lawful p)
    {f : Ty → B.Operand → ArchitectureSize → Gen B Unit}
    (h : ∀ t ∈ types, ∀ a o, Asks act (ask t) (f t a o)) (addr : B.Operand)
    (offset : ArchitectureSize) : Asks act (types.flatMap ask)
      (writeFieldsToMemory W (types.map fun t => (t, f t)) addr offset) := by
  refine (drain _).quiet fun fields hfields =>
    forM_types ((Prod.fst ∘ Prod.snd) ∘ Prod.fst) ?_ fun x hx => ?_
  · have hzip := zip_offsets hW (types.map fun t => (t, f t))
    have hlen := congrArg List.length hzip
    rw [List.length_map] at hlen
    rw [← List.map_map, List.map_fst_zip (Nat.le_of_eq (by rw [hlen, hfields])),
      ← List.map_map, hzip, map_members]
  · obtain ⟨t, ht, hx'⟩ := List.mem_map.mp (List.of_mem_zip (List.of_mem_zip hx).1).2
    obtain ⟨⟨o, m⟩, op⟩ := x
    cases hx'
    exact (push _).silent fun _ => h t ht _ _

theorem forEachRecordType {f : Ty → Gen B Unit}
    (h : ∀ t ∈ types, Asks act (ask t) (f t)) (args : List B.Operand) :
    Asks act (types.flatMap ask)
      (forEachRecordType W (types.map fun t => (t, f t)) args) := by
  induction types generalizing args with
  | nil => exact done
  | cons t types ih =>
    rw [List.flatMap_cons]
    refine (flatTypes t).silent fun _ => (slice _ _).silent fun _ => (extend _).silent fun _ =>
      (h t List.mem_cons_self).and_then fun _ => ?_
    exact ih (fun u hu => h u (List.mem_cons_of_mem _ hu)) _

theorem flatForEachRecordType (container : Ty) {f : Ty → Gen B Unit}
    (h : ∀ t ∈ types, Asks act (ask t) (f t)) :
    Asks act (types.flatMap ask)
      (flatForEachRecordType W container (types.map fun t => (t, f t))) :=
  (flatTypes container).silent fun _ => (drain _).quiet fun _ _ => forEachRecordType h _

/-- What a loop over the arms of a type, each with its emitter, goes through. -/
theorem mem_arm {γ : Type} {f : Ty → γ} {o : Option (Ty × γ)}
    (ho : o ∈ arms.map fun o => o.map fun t => (t, f t)) :
    o = none ∧ none ∈ arms ∨ ∃ t, o = some (t, f t) ∧ some t ∈ arms := by
  obtain ⟨u, hu, rfl⟩ := List.mem_map.mp ho
  cases u with
  | none => exact .inl ⟨rfl, hu⟩
  | some t => exact .inr ⟨t, rfl, hu⟩

variable (hact : Acts W B act)
include hact

theorem emitCasts (src dst : List WasmType) :
    Asks act [] (emitCasts W src dst : Gen B Unit) :=
  (orPanic (p := .unreachable) nofun _).quiet fun _ _ => ite (emit hact rfl) done

theorem loadIntrepr (offset : ArchitectureSize) (repr : IntRepr) :
    Asks act [] (loadIntrepr W offset repr : Gen B Unit) := by
  cases repr <;> exact emit hact rfl

theorem storeIntrepr (offset : ArchitectureSize) (repr : IntRepr) :
    Asks act [] (storeIntrepr W offset repr : Gen B Unit) := by
  cases repr <;> exact emit hact rfl

theorem lowerVariantArms (ty : Ty) {f : Ty → Gen B Unit}
    (h : ∀ t, some t ∈ arms → Asks act (ask t) (f t)) :
    Asks act (arms.flatMap (·.elim [] ask))
      (lowerVariantArms W ty (arms.map fun o => o.map fun t => (t, f t))) := by
  refine (flatTypes ty).silent fun results => finally_ (forM_types (Option.map Prod.fst ∘ Prod.fst)
    (zipIdx_arms arms f) fun x hx => ?_) fun _ => pure trivial
  have hrest : ∀ pushed, Asks act [] (if pushed < results.length then
      Generator.emit W (.constZero (results.drop pushed)) else Pure.pure () : Gen B Unit) :=
    fun pushed => ite (emit hact rfl) done
  obtain ⟨o, i⟩ := x
  refine block hact _ ((emit hact rfl).silent fun _ => pop.silent fun _ =>
    (emit hact rfl).silent fun _ => ?_)
  rcases mem_arm (List.fst_mem_of_mem_zipIdx hx) with ⟨rfl, -⟩ | ⟨t, rfl, ht⟩
  · exact (pure (R := fun _ => True) trivial).silent hrest
  · exact (push _).silent fun _ => (h t ht).finally_ fun _ => (flatTypes t).silent fun _ =>
      (emitCasts hact _ _).silent fun _ => (pure (R := fun _ => True) trivial).silent hrest

theorem writeVariantArmsToMemory (offset : ArchitectureSize) (addr : B.Operand) (tag : IntRepr)
    {f : Ty → B.Operand → ArchitectureSize → Gen B Unit}
    (h : ∀ t, some t ∈ arms → ∀ a o, Asks act (ask t) (f t a o)) :
    Asks act (arms.flatMap (·.elim [] ask))
      (writeVariantArmsToMemory W offset addr tag
        (arms.map fun o => o.map fun t => (t, f t))) := by
  refine forM_types (Option.map Prod.fst ∘ Prod.fst) (zipIdx_arms arms f) fun x hx => ?_
  obtain ⟨o, i⟩ := x
  refine block hact _ ((emit hact rfl).silent fun _ => pop.silent fun _ =>
    (emit hact rfl).silent fun _ => (push _).silent fun _ =>
      (storeIntrepr hact _ _).silent fun _ => ?_)
  rcases mem_arm (List.fst_mem_of_mem_zipIdx hx) with ⟨rfl, -⟩ | ⟨t, rfl, ht⟩
  · exact done
  · exact (push _).silent fun _ => h t ht _ _

theorem flatForEachVariantArm (ty : Ty) (hasResult : Bool) {f : Ty → Gen B Unit}
    (h : ∀ t, some t ∈ arms → Asks act (ask t) (f t)) :
    Asks act (arms.flatMap (·.elim [] ask))
      (flatForEachVariantArm W ty hasResult (arms.map fun o => o.map fun t => (t, f t))) := by
  refine (flatTypes ty).silent fun _ => (drain _).quiet fun _ _ =>
    forM_types (Option.map Prod.fst) (map_arms arms f) fun o ho => block hact _ ?_
  rcases mem_arm ho with ⟨rfl, -⟩ | ⟨t, rfl, ht⟩
  · exact done
  · exact (flatTypes t).silent fun _ => (slice _ _).silent fun _ => (extend _).silent fun _ =>
      (emitCasts hact _ _).silent fun _ => h t ht

/-- `read_variant_arms_from_memory` and `deallocate_indirect_variant`. -/
theorem indirectArms (sizes : Option (MemMember B) → Nat) (payloadOffset : ArchitectureSize)
    (addr : B.Operand) {f : Ty → B.Operand → ArchitectureSize → Gen B Unit}
    (h : ∀ t, some t ∈ arms → ∀ a o, Asks act (ask t) (f t a o)) :
    Asks act (arms.flatMap (·.elim [] ask))
      ((arms.map fun o => o.map fun t => (t, f t)).forM fun arm => Generator.block (sizes arm)
        (match arm with
        | none => Pure.pure ()
        | some (_, run) => run addr payloadOffset)) := by
  refine forM_types (Option.map Prod.fst) (map_arms arms f) fun o ho => block hact _ ?_
  rcases mem_arm ho with ⟨rfl, -⟩ | ⟨t, rfl, ht⟩
  · exact done
  · exact h t ht _ _

end

/-! ## Lowering -/

theorem lowerEndpoint_acts (e : Endpoint) : (Instruction.lowerEndpoint e).acts := by
  obtain ⟨kind, ty, payload⟩ := e
  cases kind <;> rfl

theorem liftEndpoint_acts (e : Endpoint) : (Instruction.liftEndpoint e).acts := by
  obtain ⟨kind, ty, payload⟩ := e
  cases kind <;> rfl

section
variable (hact : Acts W B act)
include hact

theorem lowerAndEmit {lower : Gen B Unit} (h : Asks act is lower)
    (addr : B.Operand) {i : Instruction} (hi : i.acts = false) :
    Asks act is (lowerAndEmit W lower addr i) :=
  h.finally_ fun _ => (push _).silent fun _ => emit hact hi

theorem writeListToMemory (ty : Ty) {lower : Gen B Unit}
    (h : Asks act is lower) (addr : B.Operand) (offset : ArchitectureSize) :
    Asks act is (writeListToMemory W ty lower addr offset) :=
  h.finally_ fun _ => (push _).silent fun _ => (emit hact rfl).silent fun _ =>
    (push _).silent fun _ => emit hact rfl

/-- Lowering a type, flat or to memory, lowers each future and stream in it, from left to
right. -/
theorem lowering_traced {p : Nat} (hW : W.Lawful p) (ty : Ty) (hapart : ty.Apart) :
    Asks act (ty.asks .lowerEndpoint) (Generator.lower W ty : Gen B Unit) ∧
      ∀ addr offset, Asks act (ty.asks .lowerEndpoint)
        (Generator.writeToMemory W ty addr offset : Gen B Unit) := by
  induction ty using Ty.ind with
  | prim q =>
    rw [Ty.asks_nil rfl rfl]
    refine flat_and_memory ?_ fun hlower addr offset => ?_
    · rw [Generator.lower]
      cases q <;> exact emit hact rfl
    · rw [Generator.writeToMemory]
      cases q <;> exact lowerAndEmit hact hlower _ rfl
  | errorContext | handle =>
    rw [Ty.asks_nil rfl rfl]
    refine flat_and_memory ?_ fun hlower addr offset => ?_
    · rw [Generator.lower]
      exact emit hact rfl
    · rw [Generator.writeToMemory]
      exact lowerAndEmit hact hlower _ rfl
  | string =>
    rw [Ty.asks_nil rfl rfl]
    refine flat_and_memory ?_ fun hlower addr offset => ?_
    · rw [Generator.lower]
      exact listRealloc.silent fun _ => emit hact rfl
    · rw [Generator.writeToMemory]
      exact writeListToMemory hact _ hlower _ _
  | type id t ih =>
    rw [Ty.asks_part rfl rfl, Generator.lower]
    refine (ih (hapart.part List.mem_cons_self)).imp_right fun hwrite addr offset => ?_
    rw [Generator.writeToMemory]
    exact hwrite addr offset
  | list id t ih =>
    obtain ⟨-, hwrite⟩ := ih (hapart.part List.mem_cons_self)
    rw [Ty.asks_part rfl rfl]
    refine flat_and_memory ?_ fun hlower addr offset => ?_
    · rw [Generator.lower]
      refine listRealloc.silent fun _ =>
        (pure (R := (· = B.isListCanonical t)) rfl).quiet fun canonical hcanonical => ?_
      split
      · next hc =>
          rw [Ty.asks, hact.canonical (hcanonical ▸ hc)]
          exact emit hact rfl
      · exact (block hact _ ((emit hact rfl).silent fun _ => (emit hact rfl).silent fun _ =>
          pop.silent fun p => hwrite p _)).finally_ fun _ => emit hact rfl
    · rw [Generator.writeToMemory]
      exact writeListToMemory hact _ hlower _ _
  | map id k t ihk iht =>
    obtain ⟨-, hkey⟩ := ihk (hapart.part List.mem_cons_self)
    obtain ⟨-, hvalue⟩ := iht (hapart.part (List.mem_cons_of_mem _ List.mem_cons_self))
    rw [Ty.asks_map]
    refine flat_and_memory ?_ fun hlower addr offset => ?_
    · rw [Generator.lower]
      refine listRealloc.silent fun _ => (valueOffset k t).silent fun _ =>
        (block hact _ ((emit hact rfl).silent fun _ => (emit hact rfl).silent fun _ =>
          pop.silent fun p => (hkey p _).and_then fun _ => ?_)).finally_ fun _ => emit hact rfl
      exact (emit hact rfl).silent fun _ => (emit hact rfl).silent fun _ =>
        pop.silent fun p => hvalue p _
    · rw [Generator.writeToMemory]
      exact writeListToMemory hact _ hlower _ _
  | fixedLengthList id t n ih =>
    obtain ⟨hnone, ht⟩ := hapart.fixed
    have hask : t.asks .lowerEndpoint = [] := by rw [Ty.asks, hnone]; rfl
    rw [Ty.asks_part rfl rfl]
    obtain ⟨hlower, hwrite⟩ := ih ht
    rw [hask] at hlower hwrite ⊢
    refine ⟨?_, fun addr offset => ?_⟩
    · rw [Generator.lower]
      refine (emit hact rfl).silent fun _ => (drain _).quiet fun values hvalues => ?_
      have hloop : Asks act ((List.replicate n ()).flatMap fun _ => []) (Generator.lowerEach
          ((List.replicate n ()).map fun _ => Generator.lower W t) values) :=
        lowerEach (fun _ _ => hlower) (by simpa using hvalues)
      rwa [List.map_replicate, List.flatMap_eq_nil_iff.mpr fun _ _ => rfl] at hloop
    · rw [Generator.writeToMemory]
      exact (block hact _ ((emit hact rfl).silent fun _ => (emit hact rfl).silent fun _ =>
        pop.silent fun p => hwrite p _)).finally_ fun _ => (push _).silent fun _ => emit hact rfl
  | fields ty types hf ih =>
    have hfield : ∀ t ∈ types, _ := fun t ht => ih t ht (hapart.field hf ht)
    obtain ⟨i, hi, hlower, hwrite⟩ := lower_fields_eq (W := W) (B := B) hf
    have hemit : Asks act [] (Generator.emit W i : Gen B Unit) :=
      emit hact (by cases hi <;> rfl)
    rw [Ty.asks_fields hf]
    refine ⟨?_, fun addr offset => ?_⟩
    · rw [hlower]
      exact hemit.silent fun _ => (drain _).quiet fun values hvalues =>
        lowerEach (fun t ht => (hfield t ht).1) hvalues
    · rw [hwrite]
      exact hemit.silent fun _ =>
        writeFieldsToMemory hW (fun t ht => (hfield t ht).2) addr offset
  | flags id name names =>
    rw [Ty.asks_nil rfl rfl]
    refine flat_and_memory ?_ fun hlower addr offset => ?_
    · rw [Generator.lower]
      exact emit hact rfl
    · rw [Generator.writeToMemory]
      refine hlower.silent fun _ => ?_
      cases W.flagsRepr names.length with
      | u8 | u16 => exact (push _).silent fun _ => storeIntrepr hact _ _
      | u32 n => exact forM_silent fun i _ => (push _).silent fun _ => emit hact rfl
  | arms ty arms ha ih =>
    obtain ⟨i, hi, hlower, hwrite⟩ := lower_arms_eq (W := W) (B := B) ha
    have harm : ∀ t, some t ∈ arms → _ := fun t ht => ih t ht (hapart.arm ha ht)
    have hemit : ∀ results, Asks act [] (Generator.emit W (i results) : Gen B Unit) :=
      fun results => emit hact (by cases hi <;> rfl)
    rw [Ty.asks_arms ha]
    refine ⟨?_, fun addr offset => ?_⟩
    · rw [hlower]
      exact (lowerVariantArms hact ty fun t ht => (harm t ht).1).finally_ hemit
    · rw [hwrite]
      exact (writeVariantArmsToMemory hact _ _ _ fun t ht => (harm t ht).2).finally_ fun _ =>
        hemit []
  | enum id name cases' =>
    rw [Ty.asks_nil rfl rfl]
    refine flat_and_memory ?_ fun hlower addr offset => ?_
    · rw [Generator.lower]
      exact emit hact rfl
    · rw [Generator.writeToMemory]
      exact hlower.silent fun _ => (push _).silent fun _ => storeIntrepr hact _ _
  | future id t | stream id t =>
    refine flat_and_memory ?_ fun hlower addr offset => ?_
    · rw [Generator.lower, Ty.asks, Ty.endpoints_self rfl]
      exact emit_acts hact (lowerEndpoint_acts ⟨_, id, t⟩)
    · rw [Generator.writeToMemory]
      exact lowerAndEmit hact hlower _ rfl
  | resource | unknown =>
    refine ⟨by rw [Generator.lower]; exact panic (by simp), fun addr offset => ?_⟩
    rw [Generator.writeToMemory]
    exact panic (by simp)

end

/-! ## Lifting -/

section
variable (hact : Acts W B act)
include hact

theorem readListFromMemory (ty : Ty) {lift : Gen B Unit}
    (h : Asks act is lift) (addr : B.Operand) (offset : ArchitectureSize) :
    Asks act is (readListFromMemory W ty lift addr offset) :=
  (push _).silent fun _ => (emit hact rfl).silent fun _ => (push _).silent fun _ =>
    (emit hact rfl).silent fun _ => h

theorem emitAndLift {lift : Gen B Unit} (h : Asks act is lift)
    (addr : B.Operand) {i : Instruction} (hi : i.acts = false) :
    Asks act is (emitAndLift W lift addr i) :=
  (push _).silent fun _ => (emit hact hi).silent fun _ => h

omit hact in
theorem liftEach (i : Nat) {lift : Gen B Unit} (h : Asks act [] lift) (n : Nat)
    (args : List B.Operand) : Asks act [] (liftEach i lift n args) := by
  induction n generalizing args with
  | zero => exact done
  | succ n ih =>
    exact (slice _ _).silent fun _ => (extend _).silent fun _ => h.silent fun _ => ih _

/-- Lifting a type, flat or from memory, lifts each future and stream in it, from left to
right. -/
theorem lifting_traced {p : Nat} (hW : W.Lawful p) (ty : Ty) (hapart : ty.Apart) :
    Asks act (ty.asks .liftEndpoint) (Generator.lift W ty : Gen B Unit) ∧
      ∀ addr offset, Asks act (ty.asks .liftEndpoint)
        (Generator.readFromMemory W ty addr offset : Gen B Unit) := by
  induction ty using Ty.ind with
  | prim q =>
    rw [Ty.asks_nil rfl rfl]
    refine flat_and_memory ?_ fun hlift addr offset => ?_
    · rw [Generator.lift]
      cases q <;> exact emit hact rfl
    · rw [Generator.readFromMemory]
      cases q <;> exact emitAndLift hact hlift _ rfl
  | errorContext | handle =>
    rw [Ty.asks_nil rfl rfl]
    refine flat_and_memory ?_ fun hlift addr offset => ?_
    · rw [Generator.lift]
      exact emit hact rfl
    · rw [Generator.readFromMemory]
      exact emitAndLift hact hlift _ rfl
  | string =>
    rw [Ty.asks_nil rfl rfl]
    refine flat_and_memory ?_ fun hlift addr offset => ?_
    · rw [Generator.lift]
      exact emit hact rfl
    · rw [Generator.readFromMemory]
      exact readListFromMemory hact _ hlift _ _
  | type id t ih =>
    rw [Ty.asks_part rfl rfl, Generator.lift]
    refine (ih (hapart.part List.mem_cons_self)).imp_right fun hread addr offset => ?_
    rw [Generator.readFromMemory]
    exact hread addr offset
  | list id t ih =>
    obtain ⟨-, hread⟩ := ih (hapart.part List.mem_cons_self)
    rw [Ty.asks_part rfl rfl]
    refine flat_and_memory ?_ fun hlift addr offset => ?_
    · rw [Generator.lift]
      refine (pure (R := (· = B.isListCanonical t)) rfl).quiet fun canonical hcanonical => ?_
      split
      · next hc =>
          rw [Ty.asks, hact.canonical (hcanonical ▸ hc)]
          exact emit hact rfl
      · exact (block hact _ ((emit hact rfl).silent fun _ => pop.silent fun p =>
          hread p _)).finally_ fun _ => emit hact rfl
    · rw [Generator.readFromMemory]
      exact readListFromMemory hact _ hlift _ _
  | map id k t ihk iht =>
    obtain ⟨-, hkey⟩ := ihk (hapart.part List.mem_cons_self)
    obtain ⟨-, hvalue⟩ := iht (hapart.part (List.mem_cons_of_mem _ List.mem_cons_self))
    rw [Ty.asks_map]
    refine flat_and_memory ?_ fun hlift addr offset => ?_
    · rw [Generator.lift]
      exact (valueOffset k t).silent fun _ => (block hact _ ((emit hact rfl).silent fun _ =>
        pop.silent fun p => (hkey p _).and_then fun _ => hvalue p _)).finally_ fun _ =>
          emit hact rfl
    · rw [Generator.readFromMemory]
      exact readListFromMemory hact _ hlift _ _
  | fixedLengthList id t n ih =>
    obtain ⟨hnone, ht⟩ := hapart.fixed
    have hask : t.asks .liftEndpoint = [] := by rw [Ty.asks, hnone]; rfl
    rw [Ty.asks_part rfl rfl]
    obtain ⟨hlift, hread⟩ := ih ht
    rw [hask] at hlift hread ⊢
    refine ⟨?_, fun addr offset => ?_⟩
    · rw [Generator.lift]
      exact (flatTypes t).silent fun temp => (drain _).quiet fun args _ =>
        (liftEach _ hlift n args).silent fun _ => emit hact rfl
    · rw [Generator.readFromMemory]
      exact (block hact _ ((emit hact rfl).silent fun _ => pop.silent fun p =>
        hread p _)).finally_ fun _ => (push _).silent fun _ => emit hact rfl
  | fields ty types hf ih =>
    have hfield : ∀ t ∈ types, _ := fun t ht => ih t ht (hapart.field hf ht)
    obtain ⟨i, hi, hlift, hread⟩ := lift_fields_eq (W := W) (B := B) hf
    have hemit : Asks act [] (Generator.emit W i : Gen B Unit) :=
      emit hact (by cases hi <;> rfl)
    rw [Ty.asks_fields hf]
    refine ⟨?_, fun addr offset => ?_⟩
    · rw [hlift]
      exact (flatForEachRecordType _ fun t ht => (hfield t ht).1).finally_ fun _ => hemit
    · rw [hread]
      exact (forEachField hW (fun t ht => (hfield t ht).2) addr offset).finally_ fun _ => hemit
  | flags id name names =>
    rw [Ty.asks_nil rfl rfl]
    refine flat_and_memory ?_ fun hlift addr offset => ?_
    · rw [Generator.lift]
      exact emit hact rfl
    · rw [Generator.readFromMemory]
      refine Traces.silent ?_ fun _ => hlift
      cases W.flagsRepr names.length with
      | u8 | u16 => exact (push _).silent fun _ => loadIntrepr hact _ _
      | u32 n => exact forM_silent fun i _ => (push _).silent fun _ => emit hact rfl
  | arms ty arms ha ih =>
    obtain ⟨i, hi, hlift, hread⟩ := lift_arms_eq (W := W) (B := B) ha
    have harm : ∀ t, some t ∈ arms → _ := fun t ht => ih t ht (hapart.arm ha ht)
    have hemit : Asks act [] (Generator.emit W i : Gen B Unit) :=
      emit hact (by cases hi <;> rfl)
    rw [Ty.asks_arms ha]
    refine ⟨?_, fun addr offset => ?_⟩
    · rw [hlift]
      exact (flatForEachVariantArm hact ty true fun t ht => (harm t ht).1).finally_ fun _ => hemit
    · rw [hread]
      refine Traces.finally_ ?_ fun _ => hemit
      exact (push _).silent fun _ => (loadIntrepr hact _ _).silent fun _ =>
        indirectArms hact _ _ addr fun t ht => (harm t ht).2
  | enum id name cases' =>
    rw [Ty.asks_nil rfl rfl]
    refine flat_and_memory ?_ fun hlift addr offset => ?_
    · rw [Generator.lift]
      exact emit hact rfl
    · rw [Generator.readFromMemory]
      exact (push _).silent fun _ => (loadIntrepr hact _ _).silent fun _ => hlift
  | future id t | stream id t =>
    refine flat_and_memory ?_ fun hlift addr offset => ?_
    · rw [Generator.lift, Ty.asks, Ty.endpoints_self rfl]
      exact emit_acts hact (liftEndpoint_acts ⟨_, id, t⟩)
    · rw [Generator.readFromMemory]
      exact emitAndLift hact hlift _ rfl
  | resource | unknown =>
    refine ⟨by rw [Generator.lift]; exact panic (by simp), fun addr offset => ?_⟩
    rw [Generator.readFromMemory]
    exact panic (by simp)

end

/-! ## Deallocation -/

theorem anyOk_false {xs : List (Except Panic Bool)} (h : anyOk xs = .ok false) :
    ∀ x ∈ xs, x = .ok false := by
  intro x hx
  obtain ⟨before, after, rfl⟩ := List.append_of_mem hx
  induction before with
  | nil =>
    cases x with
    | error e => cases h
    | ok b =>
      cases b with
      | true => cases h
      | false => rfl
  | cons y before ih =>
    cases y with
    | error e => cases h
    | ok b =>
      cases b with
      | true => cases h
      | false => exact ih h (List.mem_append_right _ List.mem_cons_self)

/-- What owns nothing has no future and no stream in it. -/
theorem endpoints_of_not_needed {ty : Ty} (h : needsDeallocate .listsAndOwn ty = .ok false) :
    ty.endpoints = [] := by
  induction ty using Ty.ind with
  | type id t ih | fixedLengthList id t n ih =>
    rw [needsDeallocate] at h
    rw [Ty.endpoints_children rfl]
    exact List.flatMap_eq_nil_iff.mpr fun u hu => by
      rw [List.mem_singleton.mp hu]
      exact ih h
  | fields ty types hf ih =>
    rw [needsDeallocate_fields hf] at h
    rw [Ty.endpoints_fields hf]
    exact List.flatMap_eq_nil_iff.mpr fun t ht =>
      ih t ht (anyOk_false h _ (List.mem_map_of_mem ht))
  | arms ty arms ha ih =>
    rw [needsDeallocate_arms ha] at h
    rw [Ty.endpoints_arms ha]
    refine List.flatMap_eq_nil_iff.mpr fun o ho => ?_
    cases o with
    | none => rfl
    | some t => exact ih t ho (anyOk_false h _ (List.mem_map.mpr ⟨_, ho, rfl⟩))
  | future id t | stream id t => rw [needsDeallocate] at h; cases h
  | string | list | map => rw [needsDeallocate] at h; cases h
  | _ => exact Ty.endpoints_children rfl

theorem anyOk_error {xs : List (Except Panic Bool)} {p : Panic} (h : anyOk xs = .error p) :
    .error p ∈ xs := by
  induction xs with
  | nil => cases h
  | cons x xs ih =>
    cases x with
    | error e => cases h; exact List.mem_cons_self
    | ok b =>
      cases b with
      | true => cases h
      | false => exact List.mem_cons_of_mem _ (ih h)

/-- Where `needs_deallocate` fails, it is at a type of unknown structure. -/
theorem needsDeallocate_error {what : Deallocate} {ty : Ty} {p : Panic}
    (h : needsDeallocate what ty = .error p) : p = .unreachable := by
  induction ty using Ty.ind with
  | type id t ih | fixedLengthList id t n ih => rw [needsDeallocate] at h; exact ih h
  | fields ty types hf ih =>
    rw [needsDeallocate_fields hf] at h
    obtain ⟨t, ht, hp⟩ := List.mem_map.mp (anyOk_error h)
    exact ih t ht hp
  | arms ty arms ha ih =>
    rw [needsDeallocate_arms ha] at h
    obtain ⟨o, ho, hp⟩ := List.mem_map.mp (anyOk_error h)
    cases o with
    | none => cases hp
    | some t => exact ih t ho hp
  | handle id h' name => cases h' <;> · rw [needsDeallocate] at h; cases h
  | unknown id => rw [needsDeallocate] at h; cases h; rfl
  | _ => rw [needsDeallocate] at h; cases h

section
variable (hact : Acts W B act)
include hact

theorem loadList (ty : Ty) (addr : B.Operand) (offset : ArchitectureSize) :
    Asks act [] (loadList W ty addr offset) :=
  (push _).silent fun _ => (emit hact rfl).silent fun _ => (push _).silent fun _ =>
    emit hact rfl

omit hact in
/-- What `deallocate_indirect` skips has nothing to ask for. -/
theorem deallocateIndirect_needed {ty : Ty} (h : ∀ addr offset, Asks act
      (ty.asks .liftEndpoint) (deallocateIndirectNeeded W .listsAndOwn ty addr offset : Gen B Unit))
    (addr : B.Operand) (offset : ArchitectureSize) :
    Asks act (ty.asks .liftEndpoint)
      (deallocateIndirect W .listsAndOwn ty addr offset : Gen B Unit) := by
  rw [deallocateIndirect]
  split
  · next p hp => exact panic (by rw [needsDeallocate_error hp]; simp)
  · next hnot => rw [Ty.asks, endpoints_of_not_needed hnot]; exact done
  · exact h addr offset

/-- Handles, futures and streams are lifted, to be dropped. -/
theorem dropOwned_both {p : Nat} (hW : W.Lawful p) {ty : Ty} (hapart : ty.Apart) :
    Asks act (ty.asks .liftEndpoint)
      (dropOwned W .listsAndOwn ty : Gen B Unit) ∧
      ∀ addr offset, Asks act (ty.asks .liftEndpoint)
        (dropOwnedIndirect W .listsAndOwn ty addr offset : Gen B Unit) :=
  ⟨(lifting_traced hact hW ty hapart).1.finally_ fun _ => emit hact rfl, fun addr offset =>
    ((lifting_traced hact hW ty hapart).2 addr offset).finally_ fun _ => emit hact rfl⟩

/-- Giving a type back with the handles in it lifts each future and stream in it, from left to
right. -/
theorem deallocate_both {p : Nat} (hW : W.Lawful p) (ty : Ty) (hapart : ty.Apart) :
    Asks act (ty.asks .liftEndpoint)
      (deallocate W .listsAndOwn ty : Gen B Unit) ∧
      ∀ addr offset, Asks act (ty.asks .liftEndpoint)
        (deallocateIndirect W .listsAndOwn ty addr offset : Gen B Unit) := by
  have hdiscard : Asks act [] (discard : Gen B Unit) := pop.silent fun _ => done
  induction ty using Ty.ind with
  | prim | errorContext | flags | enum =>
    refine ⟨?_, deallocateIndirect_needed fun addr offset => ?_⟩
    · rw [deallocate, Ty.asks_nil rfl rfl]
      exact hdiscard
    · rw [deallocateIndirectNeeded, Ty.asks_nil rfl rfl]
      exact done
  | string =>
    refine flat_and_memory ?_ fun hfree => deallocateIndirect_needed fun addr offset => ?_
    · rw [deallocate, Ty.asks_nil rfl rfl]
      exact emit hact rfl
    · rw [deallocateIndirectNeeded]
      exact (loadList hact _ _ _).silent fun _ => hfree
  | type id t ih =>
    obtain ⟨hfree, hindirect⟩ := ih (hapart.part List.mem_cons_self)
    refine ⟨by rw [deallocate, Ty.asks_part rfl rfl]; exact hfree,
      deallocateIndirect_needed fun addr offset => ?_⟩
    rw [deallocateIndirectNeeded, Ty.asks_part rfl rfl]
    exact hindirect addr offset
  | list id t ih =>
    obtain ⟨-, hindirect⟩ := ih (hapart.part List.mem_cons_self)
    refine flat_and_memory ?_ fun hfree => deallocateIndirect_needed fun addr offset => ?_
    · rw [deallocate, Ty.asks_part rfl rfl]
      exact (block hact _ ((emit hact rfl).silent fun _ => pop.silent fun p =>
        hindirect p _)).finally_ fun _ => emit hact rfl
    · rw [deallocateIndirectNeeded]
      exact (loadList hact _ _ _).silent fun _ => hfree
  | map id k t ihk iht =>
    obtain ⟨-, hkey⟩ := ihk (hapart.part List.mem_cons_self)
    obtain ⟨-, hvalue⟩ := iht (hapart.part (List.mem_cons_of_mem _ List.mem_cons_self))
    refine flat_and_memory ?_ fun hfree => deallocateIndirect_needed fun addr offset => ?_
    · rw [deallocate, Ty.asks_map]
      exact (valueOffset k t).silent fun _ => (block hact _ ((emit hact rfl).silent fun _ =>
        pop.silent fun p => (hkey p _).and_then fun _ => hvalue p _)).finally_ fun _ =>
          emit hact rfl
    · rw [deallocateIndirectNeeded]
      exact (loadList hact _ _ _).silent fun _ => hfree
  | fixedLengthList id t n ih =>
    refine ⟨by rw [deallocate]; exact panic (by simp),
      deallocateIndirect_needed fun addr offset => ?_⟩
    rw [deallocateIndirectNeeded, Ty.asks_part rfl rfl, Ty.asks, hapart.fixed.1]
    exact done
  | fields ty types hf ih =>
    have hfield : ∀ t ∈ types, _ := fun t ht => ih t ht (hapart.field hf ht)
    obtain ⟨hflat, hneeded⟩ := deallocate_fields_eq (W := W) (B := B) .listsAndOwn hf
    refine ⟨?_, deallocateIndirect_needed fun addr offset => ?_⟩
    · rw [hflat, Ty.asks_fields hf]
      exact flatForEachRecordType _ fun t ht => (hfield t ht).1
    · rw [hneeded, Ty.asks_fields hf]
      exact forEachField hW (fun t ht => (hfield t ht).2) addr offset
  | arms ty arms ha ih =>
    obtain ⟨hflat, hneeded⟩ := deallocate_arms_eq (W := W) (B := B) .listsAndOwn ha
    have harm : ∀ t, some t ∈ arms → _ := fun t ht => ih t ht (hapart.arm ha ht)
    refine ⟨?_, deallocateIndirect_needed fun addr offset => ?_⟩
    · rw [hflat, Ty.asks_arms ha]
      exact (flatForEachVariantArm hact ty false fun t ht => (harm t ht).1).finally_ fun _ =>
        emit hact rfl
    · rw [hneeded, Ty.asks_arms ha]
      refine Traces.finally_ ?_ fun _ => emit hact rfl
      exact (push _).silent fun _ => (loadIntrepr hact _ _).silent fun _ =>
        indirectArms hact _ _ addr fun t ht => (harm t ht).2
  | handle id h name =>
    obtain ⟨hdrop, hindirect⟩ := dropOwned_both hact hW hapart
    cases h with
    | own r =>
      refine ⟨by rw [deallocate]; exact hdrop, deallocateIndirect_needed fun addr offset => ?_⟩
      rw [deallocateIndirectNeeded]
      exact hindirect addr offset
    | borrow r =>
      refine ⟨by rw [deallocate, Ty.asks_nil rfl rfl]; exact hdiscard,
        deallocateIndirect_needed fun addr offset => ?_⟩
      rw [deallocateIndirectNeeded]
      exact panic (by simp)
  | future id t | stream id t =>
    obtain ⟨hdrop, hindirect⟩ := dropOwned_both hact hW hapart
    refine ⟨by rw [deallocate]; exact hdrop, deallocateIndirect_needed fun addr offset => ?_⟩
    rw [deallocateIndirectNeeded]
    exact hindirect addr offset
  | resource | unknown =>
    refine ⟨by rw [deallocate]; exact panic (by simp),
      deallocateIndirect_needed fun addr offset => ?_⟩
    rw [deallocateIndirectNeeded]
    exact panic (by simp)

end

/-! ## Runs of the generator -/

section
variable (hact : Acts W B act)
include hact

theorem deallocateInTypes {p : Nat} (hW : W.Lawful p) {types : List Ty}
    (hapart : ∀ t ∈ types, t.Apart) (operands : List B.Operand) (indirect : Bool) :
    Asks act (types.flatMap (Ty.asks .liftEndpoint))
      (deallocateInTypes W .listsAndOwn types operands indirect : Gen B Unit) := by
  cases indirect with
  | true =>
    unfold Generator.deallocateInTypes
    rw [if_pos rfl]
    split
    · next addr =>
        refine finally_ (forM_types Prod.snd ?_ fun x hx => ?_) fun _ => assertEmptyStack
        · have hlen := congrArg List.length (hW.fieldOffsets_types types)
          rw [List.length_map] at hlen
          exact List.map_snd_zip (Nat.le_of_eq (by rw [List.length_map, hlen]))
        · exact (deallocate_both hact hW x.2 (hapart x.2 (List.of_mem_zip hx).2)).2 _ _
    · exact panic nofun
  | false =>
    unfold Generator.deallocateInTypes
    rw [if_neg Bool.false_ne_true]
    induction types generalizing operands with
    | nil => exact assert _
    | cons t types ih =>
      rw [List.flatMap_cons]
      refine (flatTypes t).silent fun _ => (slice _ _).silent fun _ => (extend _).silent fun _ =>
        (deallocate_both hact hW t (hapart t List.mem_cons_self)).1.and_then fun _ => ?_
      exact assertEmptyStack.silent fun _ =>
        ih (fun u hu => hapart u (List.mem_cons_of_mem _ hu)) _

omit hact in
theorem forEachParam {ask : Ty → List Instruction} {γ : Type} {xs : List γ} (g : γ → Ty)
    {f : γ → ArchitectureSize → Gen B Unit}
    (h : ∀ x ∈ xs, ∀ offset, Asks act (ask (g x)) (f x offset))
    (offset : ArchitectureSize) : Asks act (xs.flatMap (ask ∘ g))
      (forEachParam W (xs.map fun x => (g x, f x)) offset) := by
  induction xs generalizing offset with
  | nil => exact done
  | cons x xs ih =>
    rw [List.flatMap_cons]
    exact (h x List.mem_cons_self _).and_then fun _ =>
      ih (fun y hy => h y (List.mem_cons_of_mem _ hy)) _

theorem liftArgs {types : List Ty} (h : ∀ t ∈ types, Asks act
      (t.asks .liftEndpoint) (lift W t : Gen B Unit)) (maxFlat offset : Nat) :
    Asks act (types.flatMap (Ty.asks .liftEndpoint))
      (liftArgs W maxFlat types offset : Gen B Unit) := by
  induction types generalizing offset with
  | nil => exact done
  | cons t types ih =>
    rw [List.flatMap_cons]
    refine (orPanic (p := .unwrap) nofun _).quiet fun tys _ =>
      (forM_silent fun _ _ => emit hact rfl).silent fun _ =>
        (h t List.mem_cons_self).and_then fun _ => ?_
    exact ih (fun u hu => h u (List.mem_cons_of_mem _ hu)) _

variable {func : Function} {sig : WasmSignature}

/-- An import lowers its arguments up to its call. -/
theorem importCall {p : Nat} (hW : W.Lawful p) (hapart : ∀ t ∈ func.paramTypes, t.Apart) :
    Asks act (func.paramTypes.flatMap (Ty.asks .lowerEndpoint))
      (importCall W func sig : Gen B Unit) := by
  have hlower := fun t ht => lowering_traced hact hW t (hapart t ht)
  have hargs : Asks act (func.paramTypes.flatMap (Ty.asks .lowerEndpoint))
      (importArgs W func sig : Gen B Unit) := by
    refine ite ((returnPointer hact _ _).silent fun ptr => ?_) ?_
    · have hask : func.paramTypes.zipIdx.flatMap (Ty.asks .lowerEndpoint ∘ Prod.fst) =
          func.paramTypes.flatMap (Ty.asks .lowerEndpoint) := by
        conv_rhs => rw [← List.zipIdx_map_fst 0 func.paramTypes, List.flatMap_map]
        rfl
      rw [← hask]
      exact (forEachParam Prod.fst (fun x hx offset => (emit hact rfl).silent fun _ =>
        (hlower x.1 (List.fst_mem_of_mem_zipIdx hx)).2 ptr offset) default).finally_ fun _ => push _
    · exact forM_types Prod.fst (List.zipIdx_map_fst 0 _) fun x hx =>
        (emit hact rfl).silent fun _ => (hlower x.1 (List.fst_mem_of_mem_zipIdx hx)).1
  have harea : Asks act [] (importArea W func sig : Gen B Unit) :=
    ite ((returnPointer hact _ _).silent fun _ => (setReturnPointer _).silent fun _ => push _) done
  exact (setRealloc _).silent fun _ => hargs.finally_ fun _ => (setRealloc _).silent fun _ =>
    harea.silent fun _ => stackLen.silent fun _ => assert _

theorem liftResults {p : Nat} (hW : W.Lawful p) (hapart : ∀ t ∈ func.result, t.Apart) :
    Asks act (func.result.toList.flatMap (Ty.asks .liftEndpoint))
      (liftResults W func .guestImport sig false : Gen B Unit) := by
  have hlift := fun t ht => lifting_traced hact hW t (hapart t (Option.mem_toList.mp ht))
  cases hret : sig.retptr with
  | true =>
    rw [liftResults_retptr hret]
    exact (assert _).silent fun _ => takeReturnPointer.silent fun ptr =>
      (forEachField hW (fun t ht => (hlift t ht).2) ptr _).finally_ fun _ => emit hact rfl
  | false =>
    rw [Generator.liftResults, if_neg (by rw [hret]; exact Bool.false_ne_true)]
    cases hr : func.result with
    | none => exact done
    | some t =>
      rw [Option.toList_some, List.flatMap_singleton]
      exact (hlift t (by rw [hr]; exact List.mem_singleton.mpr rfl)).1

omit hact in
/-- The checks around a call. -/
theorem checked {g : Gen B Unit} (h : Asks act is g) :
    Asks act is (assertNoRealloc >>= fun _ => g >>= fun _ =>
      assertNoRealloc >>= fun _ => Generator.assertEmptyStack) := by
  have hrealloc : Asks act [] (assertNoRealloc : Gen B Unit) := by
    refine of_frame (fun s x s' h => ?_) fun s h => ?_
    · unfold assertNoRealloc at h
      split at h <;> cases h
      exact ⟨trivial, rfl⟩
    · unfold assertNoRealloc at h
      split at h <;> cases h
  exact hrealloc.silent fun _ => h.finally_ fun _ => hrealloc.silent fun _ => assertEmptyStack

/-- An import lowers its arguments, makes its call, and lifts its result. -/
theorem call_import {p : Nat} (hW : W.Lawful p) (hparams : ∀ t ∈ func.paramTypes, t.Apart)
    (hresult : ∀ t ∈ func.result, t.Apart) : Asks act
      (func.paramTypes.flatMap (Ty.asks .lowerEndpoint) ++
        (.callWasm func.name (W.wasmSignature .guestImport func) ::
          func.result.toList.flatMap (Ty.asks .liftEndpoint)))
      (Generator.call W func .guestImport .lowerArgsLiftResults false : Gen B Unit) := by
  refine checked ?_
  change Traces act _ _ (callLowerArgs W func .guestImport _ .none false)
  rw [callLowerArgs_eq]
  exact (importCall hact hW hparams).and_then fun _ => (emit_acts hact rfl).and_then fun _ =>
    (liftResults hact hW hresult).finally_ fun _ => emit hact rfl

theorem exportResults {p : Nat} (hW : W.Lawful p) {variant : AbiVariant}
    (hvariant : variant = .guestExport ∨ variant = .guestExportAsync) (realloc : Realloc)
    (async_ toMemory : Bool) (hresult : ∀ t ∈ func.result, t.Apart) :
    Asks act (func.result.toList.flatMap (Ty.asks .lowerEndpoint))
      (exportResults W func variant sig realloc async_ toMemory : Gen B Unit) := by
  have hlower := fun t ht => lowering_traced hact hW t (hresult t (Option.mem_toList.mp ht))
  have hfree : Asks act []
      (freeParams W func variant sig async_ : Gen B Unit) :=
    ite ((emit hact rfl).silent fun _ => emit hact rfl) done
  refine hfree.silent fun _ => (setRealloc _).silent fun _ => ?_
  cases toMemory with
  | false =>
    rw [lowerResults_flat]
    cases hr : func.result with
    | none => exact done
    | some t =>
      rw [Option.toList_some, List.flatMap_singleton]
      exact (hlower t (by rw [hr]; exact List.mem_singleton.mpr rfl)).1
  | true =>
    rw [lowerResults_memory hvariant]
    exact (returnPointer hact _ _).silent fun ptr =>
      (writeFieldsToMemory hW (fun t ht => (hlower t ht).2) ptr _).finally_ fun _ => push _

/-- An export lifts its arguments, calls the user's function, lowers its result and, where it is
async, hands that over. -/
theorem call_export {p : Nat} (hW : W.Lawful p) (hparams : ∀ t ∈ func.paramTypes, t.Apart)
    (hresult : ∀ t ∈ func.result, t.Apart) {variant : AbiVariant}
    (hvariant : variant = .guestExport ∨ variant = .guestExportAsync) (async_ : Bool) :
    ∃ last, (async_ = true ∧ (∃ name tys, last = [.asyncTaskReturn name tys]) ∨
        async_ = false ∧ last = []) ∧
      Asks act (func.paramTypes.flatMap (Ty.asks .liftEndpoint) ++
        (.callInterface func async_ :: (func.result.toList.flatMap (Ty.asks .lowerEndpoint) ++ last)))
        (Generator.call W func variant .liftArgsLowerResults async_ : Gen B Unit) := by
  have hlift := fun t ht => lifting_traced hact hW t (hparams t ht)
  obtain ⟨flat, toMemory, hflat, -, hcall⟩ := @callLiftArgs_eq W B func variant
    (W.wasmSignature variant func) async_ hvariant (callRealloc variant .liftArgsLowerResults async_)
  obtain ⟨i, hi, hlast⟩ := @returnResults_eq W B func variant (W.wasmSignature variant func) async_
    hvariant flat hflat
  have hargs : Asks act (func.paramTypes.flatMap (Ty.asks .liftEndpoint))
      (exportArgs W func (W.wasmSignature variant func) : Gen B Unit) :=
    ite ((emit hact rfl).silent fun _ => pop.silent fun ptr =>
        forEachParam id (fun t ht offset => (hlift t ht).2 ptr offset) default)
      (liftArgs hact (fun t ht => (hlift t ht).1) maxFlatParams 0)
  have hresults : Asks act _ (WitBindgen.exportResults W func variant (W.wasmSignature variant func)
      (callRealloc variant .liftArgsLowerResults async_) async_ toMemory : Gen B Unit) :=
    exportResults hact hW hvariant _ async_ toMemory hresult
  have hend : ∃ last, (async_ = true ∧ (∃ name tys, last = [Instruction.asyncTaskReturn name tys]) ∨
      async_ = false ∧ last = []) ∧ Asks act last (Generator.emit W i : Gen B Unit) := by
    rcases hlast with ⟨hasync, name, tys, rfl⟩ | ⟨hasync, rfl⟩
    · exact ⟨[.asyncTaskReturn name tys], .inl ⟨hasync, name, tys, rfl⟩, emit_acts hact rfl⟩
    · exact ⟨[], .inr ⟨hasync, rfl⟩, emit hact rfl⟩
  obtain ⟨last, hlast, hend⟩ := hend
  refine ⟨last, hlast, checked ?_⟩
  rw [hcall, hi]
  exact hargs.and_then fun _ => (emit_acts hact rfl).and_then fun _ =>
    hresults.and_then fun _ => hend.finally_ fun _ => setRealloc _

end

end Traces

end Generator

end WitBindgen
