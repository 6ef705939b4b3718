import WitBindgen.C.Typedef
import WitBindgen.C.Extent
import WitBindgen.Canon.Memory

/-!
# C structs and the canonical layout

Lists, maps, argument areas and stream buffers are handed over as C memory, with
nothing done for their elements, so a typedef has to be laid out the way the
canonical layout asks for. It is for every type but one: `flags_repr` makes a
`uint64_t` of flags that take two words, which C aligns to eight bytes and the
canonical layout to four; and flags that take more words have no typedef at all.
-/

namespace WitBindgen

open CStruct

/-! ## Parts of a type -/

/-- The types that the typedef of a type refers to. -/
def Ty.components : Ty → List Ty
  | .type _ t | .list _ t | .fixedLengthList _ t _ | .option _ t => [t]
  | .map _ k t => [k, t]
  | .record _ _ fields => fields.map (·.2)
  | .tuple _ types => types
  | .variant _ _ cases => (cases.map (·.2)).reduceOption
  | .result _ ok err => [ok, err].reduceOption
  | _ => []

/-- `s.Part t`: the type `s` is `t`, or a part of one of its components. -/
inductive Ty.Part (s : Ty) : Ty → Prop where
  | whole : Part s s
  | inside {t u : Ty} : u ∈ t.components → Part s u → Part s t

theorem Ty.components_fields {ty : Ty} {types : List Ty} (h : ty.fieldTypes = some types) :
    ty.components = types := by
  cases ty with
  | record | tuple => exact Option.some.inj h
  | _ => cases h

theorem Ty.components_arms {ty t : Ty} {arms : List (Option Ty)} (h : ty.arms = some arms)
    (ht : some t ∈ arms) : t ∈ ty.components := by
  have hmem : ∀ {os : List (Option Ty)}, some t ∈ os → t ∈ os.reduceOption := by
    intro os hos
    simpa [List.reduceOption] using hos
  cases ty with
  | variant =>
    obtain rfl := Option.some.inj h
    exact hmem ht
  | option =>
    obtain rfl := Option.some.inj h
    simpa [components] using ht
  | result =>
    obtain rfl := Option.some.inj h
    exact hmem ht
  | _ => cases h

theorem Ty.Part.trans {s t u : Ty} (h : s.Part t) (hu : u.Part s) : u.Part t := by
  induction h with
  | whole => exact hu
  | inside hmem _ ih => exact .inside hmem ih

theorem Ty.Valid.of_component {t u : Ty} (h : t.Valid) (hu : u ∈ t.components) : u.Valid := by
  cases h with
  | type h | list h | fixedLengthList _ h =>
    obtain rfl := List.mem_singleton.mp hu
    exact h
  | map hk ht =>
    rcases List.mem_pair.mp hu with rfl | rfl
    · exact hk
    · exact ht
  | fields hf hs => exact hs u (Ty.components_fields hf ▸ hu)
  | arms ha _ _ hs =>
    refine hs u ?_
    cases t with
    | variant | result =>
      obtain rfl := Option.some.inj ha
      simpa [components, List.reduceOption] using hu
    | option =>
      obtain rfl := Option.some.inj ha
      simpa [components] using hu
    | _ => cases ha
  | _ => cases hu

theorem Ty.Valid.of_part {s t : Ty} (h : t.Valid) (hs : s.Part t) : s.Valid := by
  induction hs with
  | whole => exact h
  | inside hmem _ ih => exact ih (h.of_component hmem)

/-- What the C generator has typedefs for: it stops at error contexts and at
fixed-length lists. -/
def Ty.inC : Ty → Bool
  | .errorContext | .fixedLengthList _ _ _ => false
  | _ => true

/-- Not more flags than one word has bits. -/
def Ty.narrow : Ty → Bool
  | .flags _ _ names => names.length ≤ 32
  | _ => true

namespace C

/-! ## The printed struct -/

theorem collect_map {α β : Type} {P : α → β → Prop} {f : α → Option β} (xs : List α)
    (h : ∀ x ∈ xs, ∃ y, f x = some y ∧ P x y) :
    ∃ ys, collect (xs.map f) = some ys ∧ List.Forall₂ P xs ys := by
  induction xs with
  | nil => exact ⟨[], rfl, .nil⟩
  | cons x xs ih =>
    obtain ⟨y, hy, hp⟩ := h x (List.mem_cons_self ..)
    obtain ⟨ys, hys, hps⟩ := ih fun x' hx' => h x' (List.mem_cons_of_mem x hx')
    refine ⟨y :: ys, ?_, .cons hp hps⟩
    rw [collect, List.map_cons, List.mapM_cons] 
    rw [collect] at hys
    simp [hy, hys]

variable {exported : TypeId → Bool} {ty : Ty}

theorem decl_fields {types : List Ty} {ms : List Decl} (h : ty.fieldTypes = some types)
    (hms : collect (types.map (decl exported)) = some ms) (hlen : ms.length = types.length) :
    ∃ members, decl exported ty = some (.struct members) ∧ members.map (·.2) = ms := by
  cases h using Ty.fields_cases with
  | record id name fields =>
    rw [List.map_map] at hms
    refine ⟨(fields.map fun f => f.1).zip ms, ?_, List.map_snd_zip (by simp [hlen])⟩
    rw [decl]
    exact congrArg (Option.bind · _) hms
  | tuple id types' =>
    refine ⟨ms.mapIdx fun i m => (s!"f{i}", m), ?_, ?_⟩
    · rw [decl]
      exact congrArg (Option.bind · _) hms
    · exact List.ext_getElem (by simp) (by simp)

/-- The extent of a struct with cases. -/
def caseExtents (tag : Nat) (cases : List Extent) : List Extent :=
  if cases.isEmpty then [⟨tag, tag⟩] else [⟨tag, tag⟩, unionOf cases]

theorem taggedDecl_members (tagName : String) (tag : Scalar) (cases : List (String × Decl)) :
    ∃ members, taggedDecl tagName tag cases = .struct members ∧
      members.map (fun m => m.2.extent 4) =
        caseExtents tag.bytes (cases.map fun c => c.2.extent 4) := by
  refine ⟨_, rfl, ?_⟩
  cases cases with
  | nil => simp [caseExtents, Scalar.decl]
  | cons c cases => simp [caseExtents, Scalar.decl, Decl.extent_union]

/-- A union of no members is not printed, and takes no space. -/
theorem structOf_caseExtents {tag : Nat} (htag : 0 < tag) (cases : List Extent) :
    structOf (caseExtents tag cases) = structOf [⟨tag, tag⟩, unionOf cases] := by
  cases cases with
  | nil =>
    have hone : ∀ n, roundUp n 1 = n := fun n => by simp [roundUp, Nat.mod_one]
    have hunion : unionOf [] = ⟨0, 1⟩ := rfl
    have halign : maxAlign [⟨tag, tag⟩] = tag ∧ maxAlign [⟨tag, tag⟩, ⟨0, 1⟩] = tag := by
      simp only [maxAlign, List.foldl_cons, List.foldl_nil]
      omega
    rw [caseExtents, hunion]
    simp only [List.isEmpty_nil, if_true, structOf, halign.1, halign.2, finish, List.foldl_cons,
      List.foldl_nil, hone, Nat.add_zero]
  | cons c cases => rfl

theorem unionOf_singleton {x : Extent} (hpos : 0 < x.align) (hdvd : x.align ∣ x.size) :
    unionOf [x] = x := by
  have halign : maxAlign [x] = x.align := by
    simp only [maxAlign, List.foldl_cons, List.foldl_nil]
    omega
  have hsize : roundUp x.size x.align = x.size := roundUp_eq hpos hdvd (Nat.le_refl _) (by omega)
  rw [unionOf, halign]
  simp only [maxSize, List.foldl_cons, List.foldl_nil, Nat.zero_max, hsize]

theorem intRepr_bytes (r : IntRepr) : (intRepr r).bytes = r.bytes := by
  cases r <;> rfl

/-- The cases of a type, with the decls of those that have data. -/
theorem reduce_cases {α : Type} {cases : List α} (payload : α → Option Ty)
    {ms : List (Option (String × Decl))}
    (h : List.Forall₂ (fun c m => m.map (fun d => d.2.extent 4) =
      (payload c).map fun t => t.info.extent) cases ms) :
    ms.reduceOption.map (fun d => d.2.extent 4) =
      payloads (cases.map fun c => (payload c).map Ty.info) := by
  induction h with
  | nil => rfl
  | @cons c m cases ms hhead _ ih =>
    cases hp : payload c with
    | none =>
      cases m with
      | none => simpa [payloads, hp, List.reduceOption] using ih
      | some d => rw [hp] at hhead; cases hhead
    | some t =>
      cases m with
      | none => rw [hp] at hhead; cases hhead
      | some d =>
        rw [hp] at hhead
        have hd := Option.some.inj hhead
        simpa [payloads, hp, List.reduceOption, hd] using ih

/-- The struct of a type with cases, over the canonical extents of its payloads. -/
theorem decl_arms {arms : List (Option Ty)} (h : ty.arms = some arms)
    (hs : ∀ t, some t ∈ arms → Natural t.info ∧
      ∃ d, decl exported t = some d ∧ d.extent 4 = t.info.extent) :
    ∃ members, decl exported ty = some (.struct members) ∧
      (members.map (fun m => m.2.extent 4) =
          caseExtents ty.armTag.bytes (payloads (arms.map fun o => o.map Ty.info))) := by
  cases h using Ty.arms_cases with
  | variant id name cases =>
    obtain ⟨ms, hms, hall⟩ := collect_map (P := fun c m => m.map (fun d => d.2.extent 4) =
      (c.2.map fun t => t.info.extent)) (f := fun c =>
        c.2.elim (some none) fun t => (decl exported t).map fun d => some (c.1, d)) cases (by
      rintro ⟨n, o⟩ hc
      cases o with
      | none => exact ⟨none, rfl, rfl⟩
      | some t =>
        obtain ⟨-, d, hd, hext⟩ := hs t (List.mem_map.mpr ⟨_, hc, rfl⟩)
        exact ⟨some (n, d), by simp [hd], by simp [hext]⟩)
    obtain ⟨members, htagged, hmembers⟩ :=
      taggedDecl_members "tag" (intRepr (tagOf cases.length)) ms.reduceOption
    refine ⟨members, ?_, ?_⟩
    · rw [decl, ← htagged]
      refine congrArg (Option.bind · _) (Eq.trans (congrArg collect ?_) hms)
      refine List.map_congr_left fun c _ => ?_
      obtain ⟨n, o⟩ := c
      cases o <;> rfl
    · rw [hmembers, reduce_cases (fun c : String × Option Ty => c.2) hall,
        intRepr_bytes, List.map_map]
      rfl
  | option id t =>
    obtain ⟨hnat, d, hd, hext⟩ := hs t (by simp)
    refine ⟨[("is_some", Scalar.bool.decl), ("val", d)], ?_, ?_⟩
    · rw [decl, hd]
      rfl
    · have hunion : unionOf [t.info.extent] = t.info.extent :=
        unionOf_singleton hnat.align.pos hnat.multiple
      simp [caseExtents, payloads, List.reduceOption, hext, hunion, Scalar.decl, Scalar.bytes,
        Ty.armTag, IntRepr.bytes]
  | result id ok err =>
    have harm : ∀ n (o : Option Ty), o ∈ [ok, err] → ∃ m : Option (String × Decl),
        (o.elim (some none) fun t => (decl exported t).map fun d => some (n, d)) = some m ∧ m.map (fun d => d.2.extent 4) = o.map fun t => t.info.extent := by
      intro n o ho
      cases o with
      | none => exact ⟨none, rfl, rfl⟩
      | some t =>
        obtain ⟨-, d, hd, hext⟩ := hs t ho
        exact ⟨some (n, d), by simp [hd], by simp [hext]⟩
    obtain ⟨m, hm, hmext⟩ := harm "ok" ok (by simp)
    obtain ⟨m', hm', hmext'⟩ := harm "err" err (by simp)
    obtain ⟨members, htagged, hmembers⟩ :=
      taggedDecl_members "is_err" Scalar.bool [m, m'].reduceOption
    refine ⟨members, ?_, ?_⟩
    · have hms : collect [ok.elim (some none) fun t => (decl exported t).map fun d => some ("ok", d),
          err.elim (some none) fun t => (decl exported t).map fun d => some ("err", d)] =
          some [m, m'] := by
        rw [hm, hm']
        rfl
      rw [← htagged]
      cases ok <;> cases err <;> · rw [decl]; exact congrArg (Option.bind · _) hms
    · have hall : List.Forall₂ (fun (c : Option Ty) (m : Option (String × Decl)) =>
          m.map (fun d => d.2.extent 4) = c.map fun t => t.info.extent) [ok, err] [m, m'] :=
        .cons hmext (.cons hmext' .nil)
      rw [hmembers, reduce_cases (fun c => c) hall]
      rfl

/-! ## Agreement -/

/-- Size, alignment and the offset of every member are the canonical ones. The
members of a type with cases are its discriminant and the union of its payloads;
a map has a struct of its own for its entries. -/
structure Agrees (exported : TypeId → Bool) (ty : Ty) (d : Decl) : Prop where
  extent : d.extent 4 = ⟨(WitParser.canonical.size ty).eval 4, (WitParser.canonical.align ty).eval 4⟩
  fields : ∀ types, ty.fieldTypes = some types →
    d.memberOffsets 4 = (WitParser.canonical.fieldOffsets types).map fun f => f.1.eval 4
  payload : ∀ arms t, ty.arms = some arms → some t ∈ arms →
    d.memberOffsets 4 = [0, (WitParser.canonical.payloadOffset
      (WitParser.canonical.armTag ty) arms).eval 4]
  entry : ∀ id k v, ty = .map id k v → ∃ key value, decl exported k = some key ∧
    decl exported v = some value ∧
    (entryDecl key value).extent 4 = (WitParser.canonical.record [k, v]).extent ∧
    (entryDecl key value).memberOffsets 4 =
      (WitParser.canonical.fieldOffsets [k, v]).map fun f => f.1.eval 4

/-- A typedef is printed for the type, and it agrees with the canonical layout. -/
def LayoutAgrees (exported : TypeId → Bool) (ty : Ty) : Prop :=
  ∃ d, decl exported ty = some d ∧ Agrees exported ty d

theorem scalar_agrees {d : Decl} {n : Nat} (hinfo : ty.info = ⟨⟨n, 0⟩, .bytes n⟩)
    (hn : Scale n) (hd : decl exported ty = some d) (hext : d.extent 4 = ⟨n, n⟩)
    (hfields : ty.fieldTypes = none) (harms : ty.arms = none)
    (hmap : ∀ id k v, ty ≠ .map id k v) :
    Natural ty.info ∧ LayoutAgrees exported ty := by
  have hextent : ty.info.extent = ⟨n, n⟩ := by
    rw [hinfo, ElementInfo.extent, Alignment.eval_bytes]
    simp [ArchitectureSize.eval]
  refine ⟨?_, d, hd, ?_⟩
  · rw [hinfo]
    refine ⟨?_, by simp, ?_⟩
    · rwa [Alignment.eval_bytes]
    · rw [Alignment.eval_bytes]
      simp [ArchitectureSize.eval]
  · refine ⟨hext.trans hextent.symm, ?_, ?_, fun id k v h => absurd h (hmap id k v)⟩
    · rw [hfields]
      simp
    · rw [harms]
      simp

theorem natural_pair : Natural pairInfo :=
  ⟨scale_four, fun _ => Nat.le_refl 4, ⟨2, rfl⟩⟩

theorem extent_bufferDecl (d : Decl) : (bufferDecl d).extent 4 = pairInfo.extent := by
  rw [bufferDecl, Decl.extent_struct]
  simp only [List.map_cons, List.map_nil, Scalar.decl, Decl.extent_scalar, Decl.extent_pointer]
  rfl

theorem extent_handleDecl (h : Handle) : (handleDecl exported h).extent 4 = handleInfo.extent := by
  cases h with
  | own r =>
    rw [handleDecl, Decl.extent_struct]
    simp only [List.map_cons, List.map_nil, Scalar.decl, Decl.extent_scalar]
    rfl
  | borrow r =>
    rw [handleDecl]
    split
    · rw [Decl.extent_pointer]
      rfl
    · rw [Decl.extent_struct]
      simp only [List.map_cons, List.map_nil, Scalar.decl, Decl.extent_scalar]
      rfl

theorem flagsRepr_narrow {n : Nat} (hpos : n ≠ 0) (h : n ≤ 32) :
    ∃ r, flagsRepr n = some r ∧ (flagsReprOf n).info = ⟨⟨r.bytes, 0⟩, .bytes r.bytes⟩ := by
  by_cases h8 : n ≤ 8
  · exact ⟨.u8, by simp [flagsRepr, flagsReprOf, hpos, h8], by
      simp [flagsReprOf, hpos, h8, FlagsRepr.info, IntRepr.bytes]⟩
  · by_cases h16 : n ≤ 16
    · exact ⟨.u16, by simp [flagsRepr, flagsReprOf, hpos, h8, h16], by
        simp [flagsReprOf, hpos, h8, h16, FlagsRepr.info, IntRepr.bytes]⟩
    · have hwords : alignTo n 32 / 32 = 1 := by
        unfold alignTo
        omega
      exact ⟨.u32, by simp [flagsRepr, flagsReprOf, hpos, h8, h16, hwords], by
        simp [flagsReprOf, hpos, h8, h16, hwords, FlagsRepr.info, IntRepr.bytes]⟩

/-- Two words are one `uint64_t`, and more have no type at all. -/
theorem flagsRepr_wide {n : Nat} (h : 32 < n) :
    (flagsReprOf n).info.align = .bytes 4 ∧ ∀ r, flagsRepr n = some r → r = .u64 := by
  have h0 : n ≠ 0 := by omega
  have h8 : ¬ n ≤ 8 := by omega
  have h16 : ¬ n ≤ 16 := by omega
  have hwords : alignTo n 32 / 32 ≠ 1 := by
    unfold alignTo
    omega
  refine ⟨by simp [flagsReprOf, h0, h8, h16, FlagsRepr.info], fun r hr => ?_⟩
  simp only [flagsRepr, flagsReprOf, h0, h8, h16, if_false] at hr
  split at hr
  · next heq => cases heq
  · next heq => cases heq
  · next heq => exact absurd (FlagsRepr.u32.inj heq) hwords
  · exact (Option.some.inj hr).symm
  · cases hr

theorem agrees_fields {types : List Ty} (h : ty.fieldTypes = some types)
    (hs : ∀ t ∈ types, Natural t.info ∧ LayoutAgrees exported t) :
    Natural ty.info ∧ LayoutAgrees exported ty := by
  obtain ⟨ms, hms, hall⟩ := collect_map (P := fun t d => d.extent 4 = t.info.extent)
    (f := decl exported) types fun t ht => by
      obtain ⟨-, d, hd, hagrees⟩ := hs t ht
      exact ⟨d, hd, hagrees.extent⟩
  obtain ⟨members, hdecl, hmembers⟩ := decl_fields h hms hall.length_eq.symm
  have hextents : members.map (fun m => m.2.extent 4) =
      (types.map Ty.info).map ElementInfo.extent := by
    have hds : members.map (fun m => m.2.extent 4) = ms.map (Decl.extent 4) := by
      rw [← hmembers, List.map_map]
      rfl
    rw [hds, List.map_map]
    clear hms hmembers hds h hs
    induction hall with
    | nil => rfl
    | cons hd _ ih => rw [List.map_cons, List.map_cons, ih, hd]; rfl
  have hnat : ∀ e ∈ types.map Ty.info, Natural e := by
    intro e he
    obtain ⟨t, ht, rfl⟩ := List.mem_map.mp he
    exact (hs t ht).1
  have hinfo := Ty.info_fields h
  refine ⟨hinfo ▸ natural_recordInfo hnat, _, hdecl, ?_, ?_, ?_, ?_⟩
  · rw [Decl.extent_struct, hextents, ← extent_recordInfo hnat, ← hinfo]
    rfl
  · intro types' h'
    obtain rfl := Option.some.inj (h.symm.trans h')
    rw [Decl.memberOffsets, hextents, List.map_map]
    exact (eval_offsetsFrom default types fun t ht => (hs t ht).1).symm
  · intro arms t h'
    rw [Ty.arms_of_fields h] at h'
    cases h'
  · rintro id k v rfl
    cases h

theorem agrees_arms {arms : List (Option Ty)} (h : ty.arms = some arms)
    (hs : ∀ t, some t ∈ arms → Natural t.info ∧ LayoutAgrees exported t) :
    Natural ty.info ∧ LayoutAgrees exported ty := by
  obtain ⟨members, hdecl, hextents⟩ := decl_arms h fun t ht => by
    obtain ⟨hnat, d, hd, hagrees⟩ := hs t ht
    exact ⟨hnat, d, hd, hagrees.extent⟩
  have hnat : ∀ e, some e ∈ arms.map (fun o => o.map Ty.info) → Natural e := by
    intro e he
    obtain ⟨o, ho, heq⟩ := List.mem_map.mp he
    cases o with
    | none => cases heq
    | some t =>
      obtain rfl := Option.some.inj heq
      exact (hs t ho).1
  have hinfo := Ty.info_arms h
  refine ⟨hinfo ▸ natural_variantInfo hnat _, _, hdecl, ?_, ?_, ?_, ?_⟩
  · rw [Decl.extent_struct, hextents, structOf_caseExtents (scale_tag _).pos,
      ← extent_variantInfo hnat, ← hinfo]
    rfl
  · intro types h'
    rw [Ty.arms_of_fields h'] at h
    cases h
  · intro arms' t h' ht
    obtain rfl := Option.some.inj (h.symm.trans h')
    have hsome : payloads (arms.map fun o => o.map Ty.info) ≠ [] := by
      have hmem : t.info ∈ (arms.map fun o => o.map Ty.info).reduceOption :=
        List.reduceOption_mem_iff.mpr (List.mem_map.mpr ⟨some t, ht, rfl⟩)
      rw [payloads]
      intro hnil
      rw [List.map_eq_nil_iff] at hnil
      rw [hnil] at hmem
      cases hmem
    have hoffset : (WitParser.canonical.payloadOffset (WitParser.canonical.armTag ty) arms).eval 4 =
        roundUp ty.armTag.bytes (maxAlign (payloads (arms.map fun o => o.map Ty.info))) := by
      rw [armTag_canonical]
      exact eval_payloadOffset hnat ty.armTag
    rw [Decl.memberOffsets, hextents, hoffset, caseExtents, if_neg (by simpa using hsome)]
    simp [offsets, roundUp, unionOf]
  · rintro id k v rfl
    cases h

theorem agrees_map {id : TypeId} {k v : Ty}
    (hk : Natural k.info ∧ LayoutAgrees exported k) (hv : Natural v.info ∧ LayoutAgrees exported v) :
    Natural (Ty.map id k v).info ∧ LayoutAgrees exported (.map id k v) := by
  obtain ⟨hknat, key, hkey, hkagrees⟩ := hk
  obtain ⟨hvnat, value, hvalue, hvagrees⟩ := hv
  have hinfo : (Ty.map id k v).info = pairInfo := by rw [Ty.info]
  have hnat : ∀ e ∈ [k.info, v.info], Natural e := by
    intro e he
    rcases List.mem_pair.mp he with rfl | rfl
    · exact hknat
    · exact hvnat
  have hextents : [("key", key), ("value", value)].map (fun m => m.2.extent 4) =
      [k.info, v.info].map ElementInfo.extent := by
    simp only [List.map_cons, List.map_nil]
    rw [hkagrees.extent, hvagrees.extent]
    rfl
  refine ⟨hinfo ▸ natural_pair, _, by rw [decl, hkey, hvalue]; rfl, ?_, ?_, ?_, ?_⟩
  · exact (extent_bufferDecl _).trans (by rw [← hinfo]; rfl)
  · intro types h
    cases h
  · intro arms t h
    cases h
  · rintro _ _ _ heq
    cases heq
    refine ⟨key, value, hkey, hvalue, ?_, ?_⟩
    · rw [entryDecl, Decl.extent_struct, hextents]
      exact (extent_recordInfo hnat).symm
    · rw [entryDecl, Decl.memberOffsets, hextents]
      refine (eval_offsetsFrom default [k, v] fun t ht => ?_).symm
      rcases List.mem_pair.mp ht with rfl | rfl
      · exact hknat
      · exact hvnat

/-- Every type whose flags take a word has a typedef with the canonical layout. -/
theorem agrees_of_narrow (t : Ty) (hvalid : t.Valid) (hc : ∀ s : Ty, s.Part t → s.inC = true)
    (hnarrow : ∀ s : Ty, s.Part t → s.narrow = true) : Natural t.info ∧ LayoutAgrees exported t := by
  have part : ∀ {t u s : Ty}, u ∈ t.components → s.Part u → s.Part t := Ty.Part.inside
  induction t using Ty.ind with
  | prim q =>
    refine scalar_agrees (n := q.bytes) (by rw [Ty.info]) (by cases q <;> simp [Scale, Prim.bytes])
      (by rw [decl]) ?_ rfl rfl (by simp)
    rw [Scalar.decl, Decl.extent_scalar]
    cases q <;> rfl
  | string =>
    have hinfo : Ty.string.info = pairInfo := by rw [Ty.info]
    exact ⟨hinfo ▸ natural_pair, _, by rw [decl], (extent_bufferDecl _).trans (by rw [← hinfo]; rfl),
      (by intro _ h; cases h), (by intro _ _ h; cases h), by intros; contradiction⟩
  | errorContext => exact absurd (hc _ .whole) (by decide)
  | type id t ih =>
    have hmem : t ∈ (Ty.type id t).components := List.mem_singleton_self t
    obtain ⟨hnat, d, hd, hagrees⟩ := ih (hvalid.of_component hmem)
      (fun s hs => hc s (part hmem hs)) (fun s hs => hnarrow s (part hmem hs))
    have hinfo : (Ty.type id t).info = t.info := by rw [Ty.info]
    refine ⟨hinfo ▸ hnat, d, by rw [decl, hd], ?_,
      (by intro _ h; cases h), (by intros; contradiction), by intros; contradiction⟩
    exact hagrees.extent.trans (congrArg ElementInfo.extent hinfo.symm)
  | list id t ih =>
    have hmem : t ∈ (Ty.list id t).components := List.mem_singleton_self t
    obtain ⟨-, d, hd, -⟩ := ih (hvalid.of_component hmem)
      (fun s hs => hc s (part hmem hs)) (fun s hs => hnarrow s (part hmem hs))
    have hinfo : (Ty.list id t).info = pairInfo := by rw [Ty.info]
    exact ⟨hinfo ▸ natural_pair, _, by rw [decl, hd]; rfl,
      (extent_bufferDecl _).trans (by rw [← hinfo]; rfl),
      (by intro _ h; cases h), (by intros; contradiction), by simp⟩
  | map id k v ihk ihv =>
    have hk : k ∈ (Ty.map id k v).components := by simp [Ty.components]
    have hv : v ∈ (Ty.map id k v).components := by simp [Ty.components]
    exact agrees_map
      (ihk (hvalid.of_component hk) (fun s hs => hc s (part hk hs))
        (fun s hs => hnarrow s (part hk hs)))
      (ihv (hvalid.of_component hv) (fun s hs => hc s (part hv hs))
        (fun s hs => hnarrow s (part hv hs)))
  | fixedLengthList id t n => exact absurd (hc _ .whole) Bool.false_ne_true
  | fields ty types h ih =>
    refine agrees_fields h fun t ht => ?_
    have hmem : t ∈ ty.components := Ty.components_fields h ▸ ht
    exact ih t ht (hvalid.of_component hmem) (fun s hs => hc s (part hmem hs))
      (fun s hs => hnarrow s (part hmem hs))
  | flags id name names =>
    have hne : names.length ≠ 0 := by
      cases hvalid with
      | flags h => exact fun h0 => h (List.eq_nil_of_length_eq_zero h0)
      | fields h | arms h => cases h
    obtain ⟨r, hr, hinfo⟩ := flagsRepr_narrow hne (by simpa [Ty.narrow] using hnarrow _ .whole)
    refine scalar_agrees (n := r.bytes) (d := (intRepr r).decl) (by rw [Ty.info, hinfo])
      (scale_tag r) (by rw [decl, hr]; rfl) ?_ rfl rfl (by simp)
    rw [Scalar.decl, Decl.extent_scalar, intRepr_bytes]
  | arms ty arms h ih =>
    refine agrees_arms h fun t ht => ?_
    have hmem := Ty.components_arms h ht
    exact ih t ht (hvalid.of_component hmem) (fun s hs => hc s (part hmem hs))
      (fun s hs => hnarrow s (part hmem hs))
  | enum id name cases =>
    refine scalar_agrees (n := (tagOf cases.length).bytes) (by rw [Ty.info]; rfl) (scale_tag _)
      (by rw [decl]) ?_ rfl rfl (by simp)
    rw [Scalar.decl, Decl.extent_scalar, intRepr_bytes]
  | handle id h name =>
    refine scalar_agrees (n := 4) (by rw [Ty.info]; rfl) scale_four (by rw [decl]) ?_ rfl rfl (by simp)
    exact extent_handleDecl h
  | future id t =>
    refine scalar_agrees (n := 4) (by rw [Ty.info]; rfl) scale_four (by rw [decl]) ?_ rfl rfl (by simp)
    rw [Scalar.decl, Decl.extent_scalar]
    rfl
  | stream id t =>
    refine scalar_agrees (n := 4) (by rw [Ty.info]; rfl) scale_four (by rw [decl]) ?_ rfl rfl (by simp)
    rw [Scalar.decl, Decl.extent_scalar]
    rfl
  | resource id => exact absurd hvalid.supported Ty.not_supported_resource
  | unknown id => exact absurd hvalid.supported Ty.not_supported_unknown

/-- Flags of more than one word never have the canonical layout. -/
theorem not_agrees_wide {id : TypeId} {name : String} {names : List String}
    (h : 32 < names.length) : ¬ LayoutAgrees exported (.flags id name names) := by
  rintro ⟨d, hd, hagrees⟩
  obtain ⟨halign, hwide⟩ := flagsRepr_wide h
  rw [decl] at hd
  obtain ⟨r, hr, rfl⟩ := Option.map_eq_some_iff.mp hd
  obtain rfl := hwide r hr
  have hinfo : (Ty.flags id name names).info = (flagsReprOf names.length).info := by rw [Ty.info]
  have hext := congrArg Extent.align hagrees.extent
  rw [Scalar.decl, Decl.extent_scalar] at hext
  have hfour : (WitParser.canonical.align (.flags id name names)).eval 4 = 4 := by
    show (Ty.flags id name names).info.align.eval 4 = 4
    rw [hinfo, halign, Alignment.eval_bytes]
  have height : (8 : Nat) = 4 := hext.trans hfour
  cases height

end C

end WitBindgen
