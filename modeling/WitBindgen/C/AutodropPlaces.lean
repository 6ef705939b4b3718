import Mathlib.Data.List.Zip
import WitBindgen.C.Autodrop

/-!
# Where the parts of a value are

Lifting only reads, so all the parts of a value are lifted from the same memory, and
each is at the place that the generator goes on from: the fields of a record, and the
payload of the case that the value has.
-/

namespace WitBindgen

open Heap

/-! ## Lifting changes nothing -/

section
variable (T : Target)

theorem liftHandle_readOnly (ws : List Word) : ReadOnly (liftHandle ws) :=
  (ReadOnly.require _).bind fun _ => .pure _

theorem liftFlat_readOnly (ty : Ty) : ∀ ws, ReadOnly (liftFlat T ty ws) := by
  induction ty using Ty.ind with
  | prim q =>
    intro ws
    rw [liftFlat]
    exact (ReadOnly.require _).bind fun _ => .require _
  | string =>
    intro ws
    rw [liftFlat]
    exact (ReadOnly.require _).bind fun _ => liftString_readOnly _
  | errorContext => intro ws; rw [liftFlat]; exact liftHandle_readOnly ws
  | type id t ih => intro ws; rw [liftFlat]; exact ih ws
  | list id t ih =>
    intro ws
    rw [liftFlat]
    exact (ReadOnly.require _).bind fun _ =>
      (ReadOnly.mapM fun a _ => load_readOnly T t a).bind fun _ => .pure _
  | map id k v ihk ihv =>
    intro ws
    rw [liftFlat]
    exact (ReadOnly.require _).bind fun _ => (ReadOnly.mapM fun a _ =>
      (load_readOnly T k a).bind fun _ => (load_readOnly T v _).bind fun _ => .pure _).bind fun _ => .pure _
  | fixedLengthList id t n ih =>
    intro ws
    rw [liftFlat]
    exact (ReadOnly.mapM fun c _ => ih c).bind fun _ => .pure _
  | fields ty types hf ih =>
    intro ws
    rw [liftFlat_fields hf, liftFields]
    refine (ReadOnly.mapM fun x hx => ?_).bind fun _ => .pure _
    obtain ⟨t, ht, heq⟩ := List.mem_map.mp (List.of_mem_zip hx).1
    rw [← heq]
    exact ih t ht _
  | flags id name names =>
    intro ws
    rw [liftFlat]
    exact (ReadOnly.require _).bind fun _ => .pure _
  | arms ty arms ha ih =>
    intro ws
    rw [liftFlat_arms ha, liftArm]
    refine (ReadOnly.require _).bind fun d => ?_
    rw [List.getElem?_map]
    cases harm : arms[d]? with
    | none => exact ReadOnly.stuck
    | some arm =>
      rw [Option.map_some, require_some, pure_bind]
      cases arm with
      | none => exact .pure _
      | some t =>
        exact (ReadOnly.require _).bind fun _ =>
          (ih t (List.mem_of_getElem? harm) _).bind fun _ => .pure _
  | enum id name cases =>
    intro ws
    rw [liftFlat]
    exact (ReadOnly.require _).bind fun _ => .require _
  | handle id h name => intro ws; rw [liftFlat]; exact liftHandle_readOnly ws
  | future id t => intro ws; rw [liftFlat]; exact liftHandle_readOnly ws
  | stream id t => intro ws; rw [liftFlat]; exact liftHandle_readOnly ws
  | resource id => intro ws; rw [liftFlat]; exact .stuck
  | unknown id => intro ws; rw [liftFlat]; exact .stuck

end

namespace C.Autodrop

/-! ## Places at run time -/

section
variable {R : Resources} {p : Nat} {args : Args}

theorem mapM_some_iff {α β : Type} {f : α → Option β} {xs : List α} {ys : List β} :
    xs.mapM f = some ys ↔ List.Forall₂ (fun x y => f x = some y) xs ys := by
  induction xs generalizing ys with
  | nil => cases ys <;> simp
  | cons x xs ih =>
    rw [List.mapM_cons]
    simp only [Option.bind_eq_bind, Option.bind_eq_some_iff, Option.pure_def, Option.some.injEq]
    constructor
    · rintro ⟨y, hy, ys', hys, rfl⟩
      exact .cons hy (ih.mp hys)
    · rintro (_ | ⟨hy, hys⟩)
      exact ⟨_, hy, _, ih.mpr hys, rfl⟩

theorem chunks_forall₂ {α β : Type} {P : α → β → Prop} (ns : List Nat) {xs : List α} {ys : List β}
    (h : List.Forall₂ P xs ys) : List.Forall₂ (List.Forall₂ P) (chunks ns xs) (chunks ns ys) := by
  induction ns generalizing xs ys with
  | nil => exact .nil
  | cons n ns ih => exact .cons (List.forall₂_take n h) (ih (List.forall₂_drop n h))

/-- A value at a place whose source is known. -/
def At (R : Resources) (p : Nat) (A : Allocator (256 ^ p)) (args : Args) (x : Ty × Place) (v : Val) : Prop :=
  ∃ src w, x.2.source p args = some src ∧ liftFrom (R.target p A) x.1 src args.world = .ok (v, w)

theorem forall₂_zip {α β γ δ : Type} {P : β → γ → Prop} {Q : α × γ → δ → Prop} {S : α × β → δ → Prop}
    (h : ∀ a b c d, P b c → Q (a, c) d → S (a, b) d) {as : List α} {bs : List β} {cs : List γ} {ds : List δ}
    (hbc : List.Forall₂ P bs cs) (hacd : List.Forall₂ Q (as.zip cs) ds) :
    List.Forall₂ S (as.zip bs) ds := by
  induction hbc generalizing as ds with
  | nil =>
    rw [List.zip_nil_right] at hacd ⊢
    cases hacd
    exact .nil
  | cons hp _ ih =>
    cases as with
    | nil =>
      cases hacd
      exact .nil
    | cons a as =>
      rw [List.zip_cons_cons] at hacd ⊢
      obtain _ | ⟨hq, hacd⟩ := hacd
      exact .cons (h _ _ _ _ hp hq) (ih hacd)

/-- The fields of a value are at the places of the fields. -/
theorem liftFrom_fields {A : Allocator (256 ^ p)} {ty : Ty} {types : List Ty} (hf : ty.fieldTypes = some types)
    {place : Place} {v : Val} (h : At R p A args (ty, place) v) :
    ∃ vs, v = .record vs ∧ List.Forall₂ (At R p A args) (types.zip (place.fields R types)) vs := by
  obtain ⟨src, w, hsrc, hv⟩ := h
  cases place with
  | flat ops =>
    rw [Place.source, Option.map_eq_some_iff] at hsrc
    obtain ⟨ws, hws, rfl⟩ := hsrc
    rw [liftFrom, liftFlat_fields hf, WitBindgen.liftFields] at hv
    obtain ⟨vs, w₁, hvs, hlast⟩ := run_bind_eq_ok hv
    cases hlast
    refine ⟨vs, rfl, ?_⟩
    rw [List.map_map, List.zip_map_left] at hvs
    have hall := List.forall₂_map_left_iff.mp (mapM_forall₂ (fun x hx => by
      obtain ⟨y, -, rfl⟩ := List.mem_map.mp hx
      exact liftFlat_readOnly _ _ _) hvs)
    have hchunks := chunks_forall₂ (types.map fun t => (R.W.pushFlat t).length) (mapM_some_iff.mp hws)
    rw [Place.fields]
    refine forall₂_zip (P := fun b c => ∃ ops, b = .flat ops ∧ ops.mapM (Expr.eval p args) = some c)
      (fun t b c d hb hd => ?_) (List.forall₂_map_left_iff.mpr
        (hchunks.imp fun _ _ hc => ⟨_, rfl, mapM_some_iff.mpr hc⟩)) hall
    obtain ⟨os, rfl, hos⟩ := hb
    exact ⟨.words c, _, by rw [Place.source, hos]; rfl, hd⟩
  | memory addr offset =>
    rw [Place.source] at hsrc
    simp only [Option.bind_eq_bind, Option.bind_eq_some_iff, Option.some.injEq] at hsrc
    obtain ⟨word, hword, a, ha, rfl⟩ := hsrc
    rw [liftFrom, load_fields hf, loadFields] at hv
    obtain ⟨vs, w₁, hvs, hlast⟩ := run_bind_eq_ok hv
    cases hlast
    refine ⟨vs, rfl, ?_⟩
    rw [← List.zip_swap, List.zip_map_left, List.map_map, List.map_map] at hvs
    have hall := List.forall₂_map_left_iff.mp (mapM_forall₂ (fun x hx => by
      obtain ⟨y, -, rfl⟩ := List.mem_map.mp hx
      exact load_readOnly _ _ _) hvs)
    have hplaces : List.Forall₂ (fun (o : ArchitectureSize) (b : Nat) => b = a + offset.eval p + o.eval p)
        ((R.W.fieldOffsets types).map (·.1))
        ((R.target p A).fieldAddrs (types.map fun t => t) (a + offset.eval p)) := by
      rw [List.map_id', Target.fieldAddrs]
      exact List.forall₂_map_left_iff.mpr (List.forall₂_map_right_iff.mpr
        (List.forall₂_same.mpr fun _ _ => rfl))
    rw [Place.fields]
    refine forall₂_zip (P := fun b c => ∃ o : ArchitectureSize, b = .memory addr (offset + o) ∧
        c = a + offset.eval p + o.eval p) (fun t b c d hb hd => ?_)
      (List.forall₂_map_left_iff.mpr (hplaces.imp fun o _ hc => ⟨o, rfl, hc⟩)) hall
    obtain ⟨o, rfl, rfl⟩ := hb
    refine ⟨.memory (a + (offset + o).eval p), args.world, ?_, ?_⟩
    · rw [Place.source, hword, Option.bind_eq_bind, Option.bind_some, ha]
      rfl
    · rw [liftFrom, ArchitectureSize.eval_add, ← Nat.add_assoc]
      exact hd

/-- A place has as many core values as its type. -/
def Fits (R : Resources) (x : Ty × Place) : Prop :=
  ∀ ops, x.2 = .flat ops → ops.length = (R.W.pushFlat x.1).length

theorem chunks_lengths {α : Type} {ns : List Nat} {xs : List α} (h : xs.length = ns.sum) :
    List.Forall₂ (fun n (c : List α) => c.length = n) ns (chunks ns xs) := by
  induction ns generalizing xs with
  | nil => exact .nil
  | cons n ns ih =>
    rw [List.sum_cons] at h
    exact .cons (by rw [List.length_take]; omega) (ih (by rw [List.length_drop]; omega))

theorem fields_fit {types : List Ty} {place : Place}
    (h : ∀ ops, place = .flat ops → ops.length = (types.map fun t => (R.W.pushFlat t).length).sum) :
    ∀ x ∈ types.zip (place.fields R types), Fits R x := by
  rintro ⟨t, q⟩ hx ops rfl
  cases place with
  | flat os =>
    have hall := chunks_lengths (h os rfl)
    rw [Place.fields, List.zip_map_right] at hx
    obtain ⟨⟨t', c⟩, hmem, heq⟩ := List.mem_map.mp hx
    cases heq
    exact (List.forall₂_iff_zip.mp (List.forall₂_map_left_iff.mp hall)).2 hmem
  | memory addr offset =>
    obtain ⟨o, -, heq⟩ := List.mem_map.mp (List.of_mem_zip hx).2
    cases heq

theorem fields_length (hW : R.W.Lawful p) (types : List Ty) (place : Place) :
    (place.fields R types).length = types.length := by
  cases place with
  | flat ops => rw [Place.fields, List.length_map, length_chunks, List.length_map]
  | memory addr offset =>
    have htypes := congrArg List.length (hW.fieldOffsets_types types)
    rw [List.length_map] at htypes
    rw [Place.fields, List.length_map, List.length_map, htypes]

/-! ## Arms -/

theorem tag_state {ty : Ty} {place : Place} {s s' : FunctionBindgen} {op : Expr}
    (h : place.tag R ty s = .ok (op, s')) : s' = s := by
  cases place with
  | flat ops =>
    cases ops with
    | nil => cases h
    | cons e ops => cases h; rfl
  | memory addr offset => cases h; rfl

theorem word_state {place : Place} {s s' : FunctionBindgen} {op : Expr}
    (h : place.word s = .ok (op, s')) : s' = s := by
  cases place with
  | flat ops =>
    cases ops with
    | nil => cases h
    | cons e ops => cases h; rfl
  | memory addr offset => cases h; rfl

/-- The discriminant is at its place. -/
theorem tag_at {A : Allocator (256 ^ p)} {ty : Ty} {arms : List (Option Ty)} (ha : ty.arms = some arms)
    {place : Place} {v : Val} (h : At R p A args (ty, place) v) {s s' : FunctionBindgen} {op : Expr}
    (hop : place.tag R ty s = .ok (op, s')) :
    ∃ d payload word, v = .variant d payload ∧ d < arms.length ∧ op.eval p args = some word ∧
      bitsOf .i32 [word] = some d := by
  obtain ⟨src, w, hsrc, hv⟩ := h
  cases place with
  | flat ops =>
    rw [Place.source, Option.map_eq_some_iff] at hsrc
    obtain ⟨ws, hws, rfl⟩ := hsrc
    cases ops with
    | nil => cases hop
    | cons e ops =>
      cases hop
      obtain _ | ⟨hword, -⟩ := mapM_some_iff.mp hws
      rename_i word us
      rw [liftFrom, liftFlat_payload ha] at hv
      obtain ⟨d, w₁, hd, hv⟩ := run_bind_eq_ok hv
      cases hbits : bitsOf .i32 [word] with
      | none => rw [hbits] at hd; cases hd
      | some d' =>
        rw [hbits] at hd
        cases hd
        obtain ⟨arm, w₂, harm, hv⟩ := run_bind_eq_ok hv
        obtain ⟨payload, w₃, -, hv⟩ := run_bind_eq_ok hv
        cases hv
        refine ⟨d, payload, word, rfl, ?_, hword, hbits⟩
        cases hget : arms[d]? with
        | none => rw [hget] at harm; cases harm
        | some _ => exact (List.getElem?_eq_some_iff.mp hget).1
  | memory addr offset =>
    cases hop
    rw [Place.source] at hsrc
    simp only [Option.bind_eq_bind, Option.bind_eq_some_iff, Option.some.injEq] at hsrc
    obtain ⟨word, hword, a, haddr, rfl⟩ := hsrc
    rw [liftFrom, load_payload ha] at hv
    obtain ⟨d, w₁, hd, hv⟩ := run_bind_eq_ok hv
    obtain ⟨arm, w₂, harm, hv⟩ := run_bind_eq_ok hv
    obtain ⟨payload, w₃, -, hv⟩ := run_bind_eq_ok hv
    cases hv
    refine ⟨d, payload, ⟨.i32, d⟩, rfl, ?_, ?_, rfl⟩
    · cases hget : arms[d]? with
      | none => rw [hget] at harm; cases harm
      | some _ => exact (List.getElem?_eq_some_iff.mp hget).1
    · rw [Expr.eval, hword, Option.bind_eq_bind, Option.bind_some, Option.bind_eq_bind, haddr, Option.bind_some]
      rw [Target.tagBytes] at hd
      rw [hd]

/-- The operands of an arm: those behind the discriminant that its payload takes, each
cast unless no cast does anything. -/
theorem arm_flat {ty t : Ty} {arms : List (Option Ty)} {ops : List Expr} {place' : Place} {s s' : FunctionBindgen}
    (h : Place.arm R ty arms t (.flat ops) s = .ok (place', s')) :
    s' = s ∧ ∃ casts os, place' = .flat os ∧
      Generator.castAll ((R.W.pushFlat ty).tail.take (R.W.pushFlat t).length) (R.W.pushFlat t) = some casts ∧
      (os = (casts.zip (ops.tail.take (R.W.pushFlat t).length)).map (fun x => .cast x.1 x.2) ∨
        (∀ c ∈ casts, c = .none) ∧ os = ops.tail.take (R.W.pushFlat t).length) := by
  dsimp only [Place.arm] at h
  cases hcasts : Generator.castAll ((R.W.pushFlat ty).tail.take (R.W.pushFlat t).length) (R.W.pushFlat t) with
  | none =>
    rw [hcasts] at h
    cases h
  | some casts =>
    rw [hcasts] at h
    dsimp only at h
    by_cases hany : casts.any (· ≠ .none) = true
    · rw [if_pos hany] at h
      cases h
      exact ⟨rfl, casts, _, rfl, rfl, Or.inl rfl⟩
    · rw [if_neg hany] at h
      cases h
      exact ⟨rfl, casts, _, rfl, rfl, Or.inr ⟨by simpa using hany, rfl⟩⟩

theorem arm_state {ty t : Ty} {arms : List (Option Ty)} {place place' : Place} {s s' : FunctionBindgen}
    (h : place.arm R ty arms t s = .ok (place', s')) : s' = s := by
  cases place with
  | flat ops => exact (arm_flat h).1
  | memory addr offset => cases h; rfl

theorem castAll_length {src dst : List WasmType} {casts : List Bitcast}
    (h : Generator.castAll src dst = some casts) : casts.length = min src.length dst.length := by
  rw [← List.length_zip]
  exact Code.mapM_length h

/-- The core values of an arm that are left to its payload. -/
theorem arm_fits (hW : R.W.Lawful p) {ty t : Ty} {arms : List (Option Ty)} (ha : ty.arms = some arms)
    (ht : some t ∈ arms) {place place' : Place} (hfits : Fits R (ty, place)) {s s' : FunctionBindgen}
    (h : place.arm R ty arms t s = .ok (place', s')) : Fits R (t, place') := by
  cases place with
  | flat ops =>
    obtain ⟨slots, hslots, hjoin⟩ := hW.flat_arms ty arms ha
    have hlen := hfits ops rfl
    dsimp only at hlen
    have hroom := (hjoin t ht).1
    rw [hslots, List.length_cons] at hlen
    obtain ⟨-, casts, os, rfl, hcasts, hos⟩ := arm_flat h
    have hcount := castAll_length hcasts
    rw [hslots, List.tail_cons, List.length_take] at hcount
    rintro _ ⟨⟩
    dsimp only
    rcases hos with rfl | ⟨-, rfl⟩
    · rw [List.length_map, List.length_zip, List.length_take, List.length_tail]
      omega
    · rw [List.length_take, List.length_tail]
      omega
  | memory addr offset =>
    cases h
    nofun

/-- A case without a payload has none. -/
theorem arm_none {A : Allocator (256 ^ p)} {ty : Ty} {arms : List (Option Ty)} (ha : ty.arms = some arms)
    {place : Place} {d : Nat} {payload : Option Val} (h : At R p A args (ty, place) (.variant d payload))
    (harm : arms[d]? = some none) : payload = none := by
  obtain ⟨src, w, -, hv⟩ := h
  cases src with
  | words ws =>
    rw [liftFrom, liftFlat_arms ha, liftArm] at hv
    obtain ⟨d', w₁, -, hv⟩ := run_bind_eq_ok hv
    obtain ⟨arm, w₂, hget, hv⟩ := run_bind_eq_ok hv
    cases arm with
    | none => cases hv; rfl
    | some arm =>
      obtain ⟨ws', w₃, -, hv⟩ := run_bind_eq_ok hv
      obtain ⟨x, w₄, -, hv⟩ := run_bind_eq_ok hv
      cases hv
      rw [List.getElem?_map, harm] at hget
      cases hget
  | memory a =>
    rw [liftFrom, load_payload ha] at hv
    obtain ⟨d', w₁, -, hv⟩ := run_bind_eq_ok hv
    obtain ⟨arm, w₂, hget, hv⟩ := run_bind_eq_ok hv
    obtain ⟨payload', w₃, hpayload, hv⟩ := run_bind_eq_ok hv
    cases hv
    rw [harm] at hget
    cases hget
    cases hpayload
    rfl

theorem eval_casts {casts : List Bitcast} {ops : List Expr} {ws ws' : List Word}
    (hops : List.Forall₂ (fun e w => Expr.eval p args e = some w) ops ws)
    (hcast : List.Forall₂ (fun x w => x.1.apply p x.2 = some w) (casts.zip ws) ws') :
    List.Forall₂ (fun e w => Expr.eval p args e = some w) ((casts.zip ops).map fun x => .cast x.1 x.2) ws' := by
  refine List.forall₂_map_left_iff.mpr (forall₂_zip (fun c e w w' hw hc => ?_) hops hcast)
  dsimp only
  rw [Expr.eval, hw, Option.bind_some]
  exact hc

/-- The payload is at the place of its arm. -/
theorem arm_at (hW : R.W.Lawful p) {A : Allocator (256 ^ p)} {ty t : Ty} {arms : List (Option Ty)}
    (ha : ty.arms = some arms) {place place' : Place} (hfits : Fits R (ty, place)) {d : Nat}
    {payload : Option Val} (h : At R p A args (ty, place) (.variant d payload))
    (harm : arms[d]? = some (some t)) {s s' : FunctionBindgen}
    (hplace : place.arm R ty arms t s = .ok (place', s')) :
    ∃ x, payload = some x ∧ At R p A args (t, place') x := by
  obtain ⟨src, w, hsrc, hv⟩ := h
  cases place with
  | flat ops =>
    rw [Place.source, Option.map_eq_some_iff] at hsrc
    obtain ⟨ws, hws, rfl⟩ := hsrc
    obtain ⟨slots, hslots, hjoin⟩ := hW.flat_arms ty arms ha
    have hlen := hfits ops rfl
    dsimp only at hlen
    have hroom := (hjoin t (List.mem_of_getElem? harm)).1
    rw [hslots, List.length_cons] at hlen
    rw [liftFrom, liftFlat_arms ha, liftArm] at hv
    obtain ⟨d', w₁, hd, hv⟩ := run_bind_eq_ok hv
    obtain rfl := (ReadOnly.require _) _ _ _ hd
    obtain ⟨arm, w₂, hget, hv⟩ := run_bind_eq_ok hv
    obtain rfl := (ReadOnly.require _) _ _ _ hget
    have hdd : d' = d := by
      cases arm with
      | none => cases hv; rfl
      | some arm =>
        obtain ⟨ws', w₃, -, hv⟩ := run_bind_eq_ok hv
        obtain ⟨x, w₄, -, hv⟩ := run_bind_eq_ok hv
        cases hv
        rfl
    subst hdd
    rw [List.getElem?_map, harm] at hget
    cases hget
    obtain ⟨ws', w₃, hcast, hv⟩ := run_bind_eq_ok hv
    obtain rfl := (ReadOnly.require _) _ _ _ hcast
    obtain ⟨x, w₄, hx, hv⟩ := run_bind_eq_ok hv
    cases hv
    refine ⟨x, rfl, .words ws', w, ?_, hx⟩
    have hcast' : castWords p slots (R.W.pushFlat t) ws.tail = some ws' := by
      rw [unjoin] at hcast
      cases hsome : castWords p (R.target p A |>.slotTys ty) (R.W.pushFlat t) ws.tail with
      | none => rw [hsome] at hcast; cases hcast
      | some us =>
        rw [hsome] at hcast
        cases hcast
        rwa [Target.slotTys, hslots, List.tail_cons] at hsome
    have htail : List.Forall₂ (fun e w => Expr.eval p args e = some w) (ops.tail.take (R.W.pushFlat t).length)
        (ws.tail.take (R.W.pushFlat t).length) := by
      rw [← List.drop_one, ← List.drop_one]
      exact List.forall₂_take _ (List.forall₂_drop _ (mapM_some_iff.mp hws))
    obtain ⟨-, casts, os, rfl, hcasts, hos⟩ := arm_flat hplace
    have hcount := castAll_length hcasts
    rw [hslots, List.tail_cons] at hcasts
    rw [hslots, List.tail_cons, List.length_take] at hcount
    have hwords : (ws.tail.take (R.W.pushFlat t).length).length = casts.length := by
      rw [← htail.length_eq, List.length_take, List.length_tail]
      omega
    rw [← castWords_take, ← WitBindgen.apply_castAll hW.width hcasts] at hcast'
    rcases hos with rfl | ⟨hnone, rfl⟩
    · rw [Place.source, Option.map_eq_some_iff]
      exact ⟨ws', mapM_some_iff.mpr (eval_casts htail (mapM_some_iff.mp hcast')), rfl⟩
    · rw [WitBindgen.apply_none hnone hwords] at hcast'
      cases hcast'
      rw [Place.source, mapM_some_iff.mpr htail]
      rfl
  | memory addr offset =>
    cases hplace
    rw [Place.source] at hsrc
    simp only [Option.bind_eq_bind, Option.bind_eq_some_iff, Option.some.injEq] at hsrc
    obtain ⟨word, hword, a, haddr, rfl⟩ := hsrc
    rw [liftFrom, load_payload ha] at hv
    obtain ⟨d', w₁, hd, hv⟩ := run_bind_eq_ok hv
    obtain rfl := (ReadOnly.loadNat _ _) _ _ _ hd
    obtain ⟨arm, w₂, hget, hv⟩ := run_bind_eq_ok hv
    obtain rfl := (ReadOnly.require _) _ _ _ hget
    obtain ⟨payload', w₃, hpayload, hv⟩ := run_bind_eq_ok hv
    cases hv
    rw [harm] at hget
    cases hget
    rw [loadPayload, map_eq_pure_bind] at hpayload
    obtain ⟨x, w₄, hx, hpayload⟩ := run_bind_eq_ok hpayload
    cases hpayload
    refine ⟨x, rfl, .memory (a + (offset + R.W.payloadOffset (R.W.armTag ty) arms).eval p), w, ?_, ?_⟩
    · rw [Place.source, hword, Option.bind_eq_bind, Option.bind_some, haddr]
      rfl
    · rw [liftFrom, ArchitectureSize.eval_add, ← Nat.add_assoc]
      exact hx

end

end C.Autodrop

end WitBindgen
