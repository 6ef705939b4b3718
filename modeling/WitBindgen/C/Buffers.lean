import WitBindgen.C.Layout

/-!
# Handing over C memory

`ListLower` and `MapLower` of the C generator drop the code for the elements and
pass the buffer as it is, and so do the argument area of an asynchronous import
and the buffers of streams and futures. That stands for the element by element
lowering as long as reading and writing through the typedefs is reading and
writing in the canonical layout.
-/

namespace WitBindgen

open CStruct Heap

/-! ## Memory code depends on the layout only -/

/-- Two layouts of a type that code cannot tell apart. -/
structure SameLayout (W W' : WitParser) (p : Nat) (ty : Ty) : Prop where
  size : (W.size ty).eval p = (W'.size ty).eval p
  align : (W.align ty).eval p = (W'.align ty).eval p
  fields : ∀ types, ty.fieldTypes = some types →
    (W.fieldOffsets types).map (fun f => f.1.eval p) =
      (W'.fieldOffsets types).map fun f => f.1.eval p
  payload : ∀ arms, ty.arms = some arms →
    (W.payloadOffset (W.armTag ty) arms).eval p = (W'.payloadOffset (W'.armTag ty) arms).eval p
  entry : ∀ id k v, ty = .map id k v →
    (W.record [k, v]).size.eval p = (W'.record [k, v]).size.eval p ∧
    (W.record [k, v]).align.eval p = (W'.record [k, v]).align.eval p ∧
    (W.fieldOffsets [k, v]).map (fun f => f.1.eval p) =
      (W'.fieldOffsets [k, v]).map fun f => f.1.eval p

section

variable {W W' : WitParser} {p : Nat} {A : Allocator (256 ^ p)} {ty : Ty}

theorem SameLayout.fieldAddrs (h : SameLayout W W' p ty) {types : List Ty}
    (hf : ty.fieldTypes = some types) (a : Nat) :
    (Target.mk W p A).fieldAddrs types a = (Target.mk W' p A).fieldAddrs types a := by
  have hshift : ∀ V : WitParser, (Target.mk V p A).fieldAddrs types a =
      ((V.fieldOffsets types).map fun f => f.1.eval p).map (a + ·) := fun V => by
    rw [List.map_map]
    rfl
  rw [hshift, hshift, h.fields types hf]

theorem SameLayout.valueOffset {id : TypeId} {k v : Ty} (h : SameLayout W W' p (.map id k v)) :
    (Target.mk W p A).valueOffset k v = (Target.mk W' p A).valueOffset k v := by
  have hvalue : ∀ V : WitParser, (Target.mk V p A).valueOffset k v =
      (((V.fieldOffsets [k, v]).map fun f => f.1.eval p)[1]?).getD 0 := fun V => by
    rw [List.getElem?_map]
    rfl
  rw [hvalue, hvalue, (h.entry id k v rfl).2.2]

theorem SameLayout.tagBytes (htag : W.tag = W'.tag) :
    (Target.mk W p A).tagBytes ty = (Target.mk W' p A).tagBytes ty := by
  show (W.armTag ty).bytes = (W'.armTag ty).bytes
  cases ty <;> simp [WitParser.armTag, htag]

variable (htag : W.tag = W'.tag) (hflags : W.flagsRepr = W'.flagsRepr)
include htag hflags

theorem load_congr (ty : Ty) (h : ∀ s : Ty, s.Part ty → SameLayout W W' p s) :
    load ⟨W, p, A⟩ ty = load ⟨W', p, A⟩ ty := by
  have part : ∀ {t u s : Ty}, u ∈ t.components → s.Part u → s.Part t := .inside
  funext a
  induction ty using Ty.ind generalizing a with
  | prim q => rw [load, load]
  | string => rw [load, load]; rfl
  | errorContext => rw [load, load]
  | type id t ih =>
    rw [load, load]
    exact ih (fun s hs => h s (part (List.mem_singleton_self t) hs)) a
  | list id t ih =>
    have hmem : t ∈ (Ty.list id t).components := List.mem_singleton_self t
    have hload := funext fun a => ih (fun s hs => h s (part hmem hs)) a
    have hsize : (Target.mk W p A).size t = (Target.mk W' p A).size t :=
      (h t (part hmem .whole)).size
    rw [load, load, hload, hsize]
    rfl
  | map id k v ihk ihv =>
    have hk : k ∈ (Ty.map id k v).components := by simp [Ty.components]
    have hv : v ∈ (Ty.map id k v).components := by simp [Ty.components]
    have hloadk := funext fun a => ihk (fun s hs => h s (part hk hs)) a
    have hloadv := funext fun a => ihv (fun s hs => h s (part hv hs)) a
    have hsame := h _ .whole
    have hsize : (Target.mk W p A).entrySize k v = (Target.mk W' p A).entrySize k v :=
      (hsame.entry id k v rfl).1
    rw [load, load, hloadk, hloadv, hsize, hsame.valueOffset]
    rfl
  | fixedLengthList id t n ih =>
    have hmem : t ∈ (Ty.fixedLengthList id t n).components := List.mem_singleton_self t
    have hload := funext fun a => ih (fun s hs => h s (part hmem hs)) a
    have hsize : (Target.mk W p A).size t = (Target.mk W' p A).size t :=
      (h t (part hmem .whole)).size
    rw [load, load, hload, hsize]
  | fields ty types hf ih =>
    have hmembers : (types.map fun t => (t, load ⟨W, p, A⟩ t)) =
        types.map fun t => (t, load ⟨W', p, A⟩ t) := by
      refine List.map_congr_left fun t ht => ?_
      have hmem : t ∈ ty.components := Ty.components_fields hf ▸ ht
      rw [funext fun a => ih t ht (fun s hs => h s (part hmem hs)) a]
    have htypes : (types.map fun t => (t, load ⟨W', p, A⟩ t)).map (·.1) = types := by
      rw [List.map_map]
      exact List.map_id types
    rw [load_fields hf, load_fields hf, hmembers, loadFields, loadFields, htypes,
      (h ty .whole).fieldAddrs hf]
  | flags id name names => rw [load, load]; simp only [hflags]
  | arms ty arms ha ih =>
    have hmembers : (arms.map fun o => o.map (load ⟨W, p, A⟩)) =
        arms.map fun o => o.map (load ⟨W', p, A⟩) := by
      refine List.map_congr_left fun o ho => ?_
      cases o with
      | none => rfl
      | some t =>
        have hmem := Ty.components_arms ha ho
        exact congrArg some (funext fun a => ih t ho (fun s hs => h s (part hmem hs)) a)
    have hpayload : (Target.mk W p A).payloadOffset ty arms =
        (Target.mk W' p A).payloadOffset ty arms := (h ty .whole).payload arms ha
    rw [load_arms ha, load_arms ha, hmembers, SameLayout.tagBytes htag, hpayload]
  | enum id name cases => rw [load, load]; simp only [htag]
  | handle id hd name => rw [load, load]
  | future id t => rw [load, load]
  | stream id t => rw [load, load]
  | resource id => rw [load, load]
  | unknown id => rw [load, load]

theorem store_congr (ty : Ty) (h : ∀ s : Ty, s.Part ty → SameLayout W W' p s) :
    store ⟨W, p, A⟩ ty = store ⟨W', p, A⟩ ty := by
  have part : ∀ {t u s : Ty}, u ∈ t.components → s.Part u → s.Part t := .inside
  funext v a
  induction ty using Ty.ind generalizing v a with
  | prim q => rw [store, store]
  | string => rw [store, store]; rfl
  | errorContext => rw [store, store]
  | type id t ih =>
    rw [store, store]
    exact ih (fun s hs => h s (part (List.mem_singleton_self t) hs)) v a
  | list id t ih =>
    have hmem : t ∈ (Ty.list id t).components := List.mem_singleton_self t
    have hstore := funext fun v => funext fun a => ih (fun s hs => h s (part hmem hs)) v a
    have hsize : (Target.mk W p A).size t = (Target.mk W' p A).size t :=
      (h t (part hmem .whole)).size
    have halign : (Target.mk W p A).align t = (Target.mk W' p A).align t :=
      (h t (part hmem .whole)).align
    rw [store, store, hstore, hsize, halign]
    rfl
  | map id k v' ihk ihv =>
    have hk : k ∈ (Ty.map id k v').components := by simp [Ty.components]
    have hv : v' ∈ (Ty.map id k v').components := by simp [Ty.components]
    have hstorek := funext fun v => funext fun a => ihk (fun s hs => h s (part hk hs)) v a
    have hstorev := funext fun v => funext fun a => ihv (fun s hs => h s (part hv hs)) v a
    have hsame := h _ .whole
    have hsize : (Target.mk W p A).entrySize k v' = (Target.mk W' p A).entrySize k v' :=
      (hsame.entry id k v' rfl).1
    have halign : (Target.mk W p A).entryAlign k v' = (Target.mk W' p A).entryAlign k v' :=
      (hsame.entry id k v' rfl).2.1
    rw [store, store, hstorek, hstorev, hsize, halign, hsame.valueOffset]
    rfl
  | fixedLengthList id t n ih =>
    have hmem : t ∈ (Ty.fixedLengthList id t n).components := List.mem_singleton_self t
    have hstore := funext fun v => funext fun a => ih (fun s hs => h s (part hmem hs)) v a
    have hsize : (Target.mk W p A).size t = (Target.mk W' p A).size t :=
      (h t (part hmem .whole)).size
    rw [store, store, hstore, hsize]
  | fields ty types hf ih =>
    have hmembers : (types.map fun t => (t, store ⟨W, p, A⟩ t)) =
        types.map fun t => (t, store ⟨W', p, A⟩ t) := by
      refine List.map_congr_left fun t ht => ?_
      have hmem : t ∈ ty.components := Ty.components_fields hf ▸ ht
      rw [funext fun v => funext fun a => ih t ht (fun s hs => h s (part hmem hs)) v a]
    have htypes : (types.map fun t => (t, store ⟨W', p, A⟩ t)).map (·.1) = types := by
      rw [List.map_map]
      exact List.map_id types
    rw [store_fields hf, store_fields hf, hmembers, storeFields, storeFields, htypes,
      (h ty .whole).fieldAddrs hf]
  | flags id name names => rw [store, store]; simp only [hflags]
  | arms ty arms ha ih =>
    have hmembers : (arms.map fun o => o.map (store ⟨W, p, A⟩)) =
        arms.map fun o => o.map (store ⟨W', p, A⟩) := by
      refine List.map_congr_left fun o ho => ?_
      cases o with
      | none => rfl
      | some t =>
        have hmem := Ty.components_arms ha ho
        exact congrArg some
          (funext fun v => funext fun a => ih t ho (fun s hs => h s (part hmem hs)) v a)
    have hpayload : (Target.mk W p A).payloadOffset ty arms =
        (Target.mk W' p A).payloadOffset ty arms := (h ty .whole).payload arms ha
    rw [store_arms ha, store_arms ha, hmembers, SameLayout.tagBytes htag, hpayload]
  | enum id name cases => rw [store, store]; simp only [htag]
  | handle id hd name => rw [store, store]
  | future id t => rw [store, store]
  | stream id t => rw [store, store]
  | resource id => rw [store, store]
  | unknown id => rw [store, store]

end

namespace C

/-! ## The layout of the typedefs -/

section

variable (exported : TypeId → Bool)

/-- The extent of a type's typedef. -/
def extentOf (t : Ty) : Extent := ((decl exported t).map (Decl.extent 4)).getD ⟨0, 1⟩

def inBytes (x : Extent) : ElementInfo := ⟨⟨x.size, 0⟩, .bytes x.align⟩

/-- The layout a C program goes by, in place of the canonical one. -/
def layouts : WitParser := { WitParser.canonical with
  size := fun t => (inBytes (extentOf exported t)).size
  align := fun t => (inBytes (extentOf exported t)).align
  fieldOffsets := fun types =>
    ((offsets 0 (types.map (extentOf exported))).map fun o => ⟨o, 0⟩).zip types
  payloadOffset := fun tag arms =>
    ⟨roundUp (intRepr tag).bytes
      (unionOf (arms.reduceOption.map (extentOf exported))).align, 0⟩
  record := fun types => inBytes (structOf (types.map (extentOf exported))) }

end

variable {exported : TypeId → Bool} {t : Ty}

@[simp] theorem eval_bytes (n : Nat) : (ArchitectureSize.mk n 0).eval 4 = n := by
  simp [ArchitectureSize.eval]

theorem length_offsets (cur : Nat) (es : List Extent) : (offsets cur es).length = es.length := by
  induction es generalizing cur with
  | nil => rfl
  | cons e es ih => simp [offsets, ih]

theorem fieldOffsets_layouts (types : List Ty) :
    ((layouts exported).fieldOffsets types).map (fun f => f.1.eval 4) =
      offsets 0 (types.map (extentOf exported)) := by
  have hlen := length_offsets 0 (types.map (extentOf exported))
  rw [List.length_map] at hlen
  have hfst : ((layouts exported).fieldOffsets types).map (·.1) =
      (offsets 0 (types.map (extentOf exported))).map fun o => (⟨o, 0⟩ : ArchitectureSize) :=
    List.map_fst_zip (by simp [hlen])
  have hcomp : ((layouts exported).fieldOffsets types).map (fun f => f.1.eval 4) =
      (((layouts exported).fieldOffsets types).map (·.1)).map (ArchitectureSize.eval 4) := by
    rw [List.map_map]
    rfl
  rw [hcomp, hfst, List.map_map]
  refine (List.map_congr_left fun o _ => ?_).trans (List.map_id _)
  simp

theorem extentOf_agrees (h : LayoutAgrees exported t) : extentOf exported t = t.info.extent := by
  obtain ⟨d, hd, hagrees⟩ := h
  rw [extentOf, hd]
  exact hagrees.extent

section

variable (hs : ∀ s : Ty, s.Part t → Natural s.info ∧ LayoutAgrees exported s)
include hs

/-- Types whose typedefs agree are laid out alike. -/
theorem sameLayout_of_agrees (s : Ty) (hpart : s.Part t) :
    SameLayout (layouts exported) WitParser.canonical 4 s := by
  have hcomp : ∀ u ∈ s.components, Natural u.info ∧ LayoutAgrees exported u := fun u hu =>
    hs u (hpart.trans (.inside hu .whole))
  have hextents : ∀ types : List Ty, (∀ u ∈ types, u ∈ s.components) →
      types.map (extentOf exported) = types.map fun u => u.info.extent := fun types h =>
    List.map_congr_left fun u hu => extentOf_agrees (hcomp u (h u hu)).2
  have hself := extentOf_agrees (hs s hpart).2
  have hoffsets : ∀ types : List Ty, (∀ u ∈ types, u ∈ s.components) →
      ((layouts exported).fieldOffsets types).map (fun f => f.1.eval 4) =
        (WitParser.canonical.fieldOffsets types).map fun f => f.1.eval 4 := by
    intro types h
    rw [fieldOffsets_layouts, hextents types h]
    exact (eval_offsetsFrom default types fun u hu => (hcomp u (h u hu)).1).symm
  refine ⟨?_, ?_, ?_, ?_, ?_⟩
  · show (ArchitectureSize.mk (extentOf exported s).size 0).eval 4 = _
    rw [eval_bytes, hself]
    rfl
  · show (Alignment.bytes (extentOf exported s).align).eval 4 = _
    rw [Alignment.eval_bytes, hself]
    rfl
  · exact fun types hf => hoffsets types fun u hu => Ty.components_fields hf ▸ hu
  · intro arms ha
    have hnat : ∀ e, some e ∈ arms.map (fun o => o.map Ty.info) → Natural e := by
      intro e he
      obtain ⟨o, ho, heq⟩ := List.mem_map.mp he
      cases o with
      | none => cases heq
      | some u =>
        obtain rfl := Option.some.inj heq
        exact (hcomp u (Ty.components_arms ha ho)).1
    have hpayloads : arms.reduceOption.map (extentOf exported) =
        payloads (arms.map fun o => o.map Ty.info) := by
      rw [hextents _ fun u hu => Ty.components_arms ha (List.reduceOption_mem_iff.mp hu), payloads,
        List.reduceOption_map, List.map_map]
      rfl
    have htag : (layouts exported).armTag s = s.armTag := by
      cases s <;> rfl
    show (ArchitectureSize.mk (roundUp (intRepr ((layouts exported).armTag s)).bytes
      (unionOf (arms.reduceOption.map (extentOf exported))).align) 0).eval 4 = _
    rw [eval_bytes, hpayloads, htag, armTag_canonical, intRepr_bytes]
    exact (eval_payloadOffset hnat s.armTag).symm
  · rintro id k v rfl
    have hmem : ∀ u ∈ [k, v], u ∈ (Ty.map id k v).components := fun u hu => hu
    have hnat : ∀ e ∈ [k.info, v.info], Natural e := by
      intro e he
      rcases List.mem_pair.mp he with rfl | rfl
      · exact (hcomp k (hmem k (by simp))).1
      · exact (hcomp v (hmem v (by simp))).1
    have hrecord : structOf ([k, v].map (extentOf exported)) =
        (WitParser.canonical.record [k, v]).extent := by
      rw [hextents _ hmem]
      exact (extent_recordInfo hnat).symm
    refine ⟨?_, ?_, hoffsets _ hmem⟩
    · show (ArchitectureSize.mk (structOf ([k, v].map (extentOf exported))).size 0).eval 4 = _
      rw [eval_bytes, hrecord]
      rfl
    · show (Alignment.bytes (structOf ([k, v].map (extentOf exported))).align).eval 4 = _
      rw [Alignment.eval_bytes, hrecord]
      rfl

end

/-! ## The result -/

/-- Every typedef that the typedef of `t` is made of has the canonical layout,
and memory used through them is memory in the canonical layout. -/
def PassesAsIs (exported : TypeId → Bool) (t : Ty) : Prop :=
  (∀ s : Ty, s.Part t → LayoutAgrees exported s) ∧
  ∀ A : Allocator (256 ^ 4),
    load ⟨layouts exported, 4, A⟩ t = load ⟨WitParser.canonical, 4, A⟩ t ∧
    store ⟨layouts exported, 4, A⟩ t = store ⟨WitParser.canonical, 4, A⟩ t

/-- C structs are laid out canonically exactly if no flags need a second word. -/
theorem struct_layout_canonical (exported : TypeId → Bool) (t : Ty) (hvalid : t.Valid)
    (hc : ∀ s : Ty, s.Part t → s.inC = true) :
    PassesAsIs exported t ↔
      ∀ id name names, (Ty.flags id name names).Part t → names.length ≤ 32 := by
  constructor
  · rintro ⟨hagree, -⟩ id name names hpart
    by_contra hwide
    exact not_agrees_wide (Nat.not_le.mp hwide) (hagree _ hpart)
  · intro hflags
    have hall : ∀ s : Ty, s.Part t → Natural s.info ∧ LayoutAgrees exported s := by
      intro s hs
      refine agrees_of_narrow s (hvalid.of_part hs) (fun u hu => hc u (hs.trans hu)) fun u hu => ?_
      cases u with
      | flags id name names => exact decide_eq_true (hflags id name names (hs.trans hu))
      | _ => rfl
    have hsame := sameLayout_of_agrees hall
    have htag : (layouts exported).tag = WitParser.canonical.tag := rfl
    have hrepr : (layouts exported).flagsRepr = WitParser.canonical.flagsRepr := rfl
    exact ⟨fun s hs => (hall s hs).2, fun A =>
      ⟨load_congr htag hrepr t hsame, store_congr htag hrepr t hsame⟩⟩

/-- `list<tuple<u8, flags>>`, the flags being two. -/
def narrowList : Ty := .list 0 (.tuple 1 [.prim .u8, .flags 2 "access" ["read", "write"]])

theorem narrowList_parts {s : Ty} (h : s.Part narrowList) : s = narrowList ∨
    s = .tuple 1 [.prim .u8, .flags 2 "access" ["read", "write"]] ∨ s = .prim .u8 ∨
    s = .flags 2 "access" ["read", "write"] := by
  cases h with
  | whole => exact Or.inl rfl
  | inside hmem h =>
    obtain rfl := List.mem_singleton.mp hmem
    cases h with
    | whole => exact Or.inr (Or.inl rfl)
    | inside hmem h =>
      rcases List.mem_pair.mp hmem with rfl | rfl
      · cases h with
        | whole => exact Or.inr (Or.inr (Or.inl rfl))
        | inside hmem _ => cases hmem
      · cases h with
        | whole => exact Or.inr (Or.inr (Or.inr rfl))
        | inside hmem _ => cases hmem

theorem struct_layout_canonical_narrow : PassesAsIs (fun _ => false) narrowList := by
  refine (struct_layout_canonical (fun _ => false) narrowList ?_ ?_).mpr ?_
  · refine .list (.fields rfl fun t ht => ?_)
    rcases List.mem_pair.mp ht with rfl | rfl
    · exact .prim .u8
    · exact .flags (by decide)
  · intro s hs
    rcases narrowList_parts hs with rfl | rfl | rfl | rfl <;> rfl
  · intro id name names hs
    rcases narrowList_parts hs with h | h | h | h
    · cases h
    · cases h
    · cases h
    · cases h
      decide

/-- Thirty-three names of flags. -/
def permissions : List String := (List.range 33).map fun i => s!"p{i}"

theorem length_permissions : permissions.length = 33 := by
  rw [permissions, List.length_map, List.length_range]

/-- A number, and flags that take two words. -/
def wideRecord : Ty :=
  .record 0 "wide" [("a", .prim .u32), ("f", .flags 1 "permissions" permissions)]

/-- The C struct has its flags at offset 8, and the canonical layout at 4. -/
theorem wide_flags_misplaced : wideRecord.Valid ∧ (∀ s : Ty, s.Part wideRecord → s.inC = true) ∧
    (decl (fun _ => false) wideRecord).map (Decl.memberOffsets 4) = some [0, 8] ∧
    (WitParser.canonical.fieldOffsets
      [.prim .u32, .flags 1 "permissions" permissions]).map (fun f => f.1.eval 4) =
        [0, 4] ∧
    ¬ PassesAsIs (fun _ => false) wideRecord := by
  have hmem : Ty.flags 1 "permissions" permissions ∈ wideRecord.components := by
    simp [wideRecord, Ty.components]
  refine ⟨.fields rfl ?_, ?_, ?_, ?_, ?_⟩
  · intro t ht
    rcases List.mem_pair.mp ht with rfl | rfl
    · exact .prim .u32
    · exact .flags (List.ne_nil_of_length_pos (by rw [length_permissions]; decide))
  · intro s hs
    cases hs with
    | whole => rfl
    | inside hmem hs =>
      rcases List.mem_pair.mp hmem with rfl | rfl
      · cases hs with
        | whole => rfl
        | inside hmem _ => cases hmem
      · cases hs with
        | whole => rfl
        | inside hmem _ => cases hmem
  · have hwords : flagsRepr 33 = some .u64 := by decide
    simp [wideRecord, decl, collect, length_permissions, hwords, Decl.memberOffsets, Scalar.decl, pushTypeName,
      Scalar.bytes, intRepr, offsets, roundUp]
  · have hinfo : flagsReprOf 33 = .u32 2 := by decide
    simp only [WitParser.canonical, offsetsFrom, Ty.info, length_permissions, hinfo,
      FlagsRepr.info, Prim.bytes]
    rfl
  · intro hpass
    exact not_agrees_wide (by rw [length_permissions]; decide) (hpass.1 _ (.inside hmem .whole))

end C

end WitBindgen
