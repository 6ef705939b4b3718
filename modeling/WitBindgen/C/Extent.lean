import WitBindgen.Library.CStruct
import WitBindgen.Wit.Canonical
import Mathlib.Data.List.ReduceOption

/-!
# The canonical layout in bytes

For pointers of four bytes the canonical layout is a layout of C: a record is
laid out as a struct, and a type with cases as a struct of its discriminant and
the union of the payloads. Sizes are counted in bytes and pointers by the
canonical layout, and rounded up early where the larger of two is in doubt; none
of that is visible once pointers have a width.
-/

namespace WitBindgen

open CStruct

/-- Size and alignment in bytes. -/
def ElementInfo.extent (e : ElementInfo) : Extent := ⟨e.size.eval 4, e.align.eval 4⟩

@[simp] theorem ElementInfo.extent_size (e : ElementInfo) : e.extent.size = e.size.eval 4 := rfl

@[simp] theorem ElementInfo.extent_align (e : ElementInfo) : e.extent.align = e.align.eval 4 := rfl

/-- The alignments there are. -/
def Scale (a : Nat) : Prop := a = 1 ∨ a = 2 ∨ a = 4 ∨ a = 8

theorem Scale.pos {a : Nat} (h : Scale a) : 0 < a := by
  rcases h with rfl | rfl | rfl | rfl <;> decide

theorem scale_one : Scale 1 := Or.inl rfl

theorem scale_four : Scale 4 := Or.inr (Or.inr (Or.inl rfl))

theorem Scale.max {a b : Nat} (ha : Scale a) (hb : Scale b) : Scale (max a b) := by
  rcases Nat.le_total a b with h | h
  · rwa [Nat.max_eq_right h]
  · rwa [Nat.max_eq_left h]

theorem Scale.dvd {a b : Nat} (ha : Scale a) (hb : Scale b) (h : a ≤ b) : a ∣ b := by
  rcases ha with rfl | rfl | rfl | rfl <;> rcases hb with rfl | rfl | rfl | rfl <;>
    first | decide | omega

/-- What the size and the alignment of a type have to do with each other. -/
structure Natural (e : ElementInfo) : Prop where
  align : Scale (e.align.eval 4)
  pointers : 0 < e.size.pointers → 4 ≤ e.align.eval 4
  multiple : e.align.eval 4 ∣ e.size.eval 4

/-! ## Alignment -/

@[simp] theorem Alignment.eval_bytes (n : Nat) : (Alignment.bytes n).eval 4 = n := by
  simp [Alignment.eval, Alignment.toSize, ArchitectureSize.eval]

@[simp] theorem Alignment.eval_pointer : Alignment.pointer.eval 4 = 4 := rfl

@[simp] theorem Alignment.eval_max (a b : Alignment) :
    (a.max b).eval 4 = Max.max (a.eval 4) (b.eval 4) := by
  cases a with
  | pointer =>
    cases b with
    | pointer => rfl
    | bytes n =>
      simp only [Alignment.max]
      split <;> simp only [eval_pointer, eval_bytes] <;> omega
  | bytes m =>
    cases b with
    | pointer =>
      simp only [Alignment.max]
      split <;> simp only [eval_pointer, eval_bytes] <;> omega
    | bytes n => simp [Alignment.max]

theorem eval_alignToArch (s : ArchitectureSize) {a : Alignment} (ha : Scale (a.eval 4)) :
    (alignToArch s a).eval 4 = roundUp (s.eval 4) (a.eval 4) := by
  cases a with
  | pointer =>
    simp only [alignToArch, Alignment.eval_pointer]
    split <;> simp only [ArchitectureSize.eval, alignTo, roundUp] at * <;> omega
  | bytes a =>
    rw [Alignment.eval_bytes] at ha ⊢
    simp only [alignToArch]
    rcases ha with rfl | rfl | rfl | rfl
    · rw [if_neg (by omega)]
      simp only [ArchitectureSize.eval, alignTo, roundUp]
      omega
    · rw [if_neg (by omega)]
      simp only [ArchitectureSize.eval, alignTo, roundUp]
      omega
    · rw [if_neg (by omega)]
      simp only [ArchitectureSize.eval, alignTo, roundUp]
      omega
    · split
      · split <;> simp only [ArchitectureSize.eval, alignTo, roundUp] at * <;> omega
      · simp only [ArchitectureSize.eval, alignTo, roundUp]
        omega

/-- Aligning only counts in pointers where pointers are aligned. -/
theorem pointers_alignToArch (s : ArchitectureSize) (a : Alignment)
    (h : 0 < (alignToArch s a).pointers) : 0 < s.pointers ∨ 4 ≤ a.eval 4 := by
  cases a with
  | pointer => exact Or.inr (Nat.le_refl 4)
  | bytes a =>
    rw [Alignment.eval_bytes]
    simp only [alignToArch] at h
    split at h
    · next hodd => exact Or.inr (by omega)
    · exact Or.inl h

/-! ## Records are structs -/

theorem maxAlign_fold {cur : Nat} (h : 0 < cur) (members : List Extent) :
    members.foldl (fun cur m => max cur m.align) cur = max cur (maxAlign members) := by
  induction members generalizing cur with
  | nil =>
    show cur = max cur 1
    omega
  | cons m ms ih =>
    have hleft : 0 < max cur m.align := by omega
    have hright : 0 < max 1 m.align := by omega
    rw [maxAlign, List.foldl_cons, List.foldl_cons, ih hleft, ih hright]
    omega

theorem maxAlign_cons (m : Extent) (ms : List Extent) :
    maxAlign (m :: ms) = max (max 1 m.align) (maxAlign ms) :=
  maxAlign_fold (Nat.lt_of_lt_of_le Nat.one_pos (Nat.le_max_left ..)) ms

theorem maxAlign_pos (members : List Extent) : 0 < maxAlign members := by
  cases members with
  | nil => exact Nat.one_pos
  | cons m ms => rw [maxAlign_cons]; omega

theorem le_maxAlign {members : List Extent} {m : Extent} (h : m ∈ members) :
    m.align ≤ maxAlign members := by
  induction members with
  | nil => cases h
  | cons x xs ih =>
    rw [maxAlign_cons]
    rcases List.mem_cons.mp h with rfl | h
    · omega
    · have := ih h
      omega

theorem scale_maxAlign {members : List Extent} (h : ∀ m ∈ members, Scale m.align) :
    Scale (maxAlign members) := by
  induction members with
  | nil => exact Or.inl rfl
  | cons x xs ih =>
    rw [maxAlign_cons]
    exact (scale_one.max (h x (List.mem_cons_self ..))).max
      (ih fun m hm => h m (List.mem_cons_of_mem x hm))

theorem foldl_align (cur : Alignment) (es : List ElementInfo) :
    (es.foldl (fun cur f => cur.max f.align) cur).eval 4 =
      (es.map ElementInfo.extent).foldl (fun cur m => max cur m.align) (cur.eval 4) := by
  induction es generalizing cur with
  | nil => rfl
  | cons e es ih =>
    rw [List.foldl_cons, List.map_cons, List.foldl_cons, ih]
    simp

variable {es : List ElementInfo}

theorem recordInfo_align : (recordInfo es).align.eval 4 = maxAlign (es.map ElementInfo.extent) :=
  foldl_align (.bytes 1) es

theorem eval_fieldsEnd (cur : ArchitectureSize) (h : ∀ e ∈ es, Scale (e.align.eval 4)) :
    (fieldsEnd cur es).eval 4 = finish (cur.eval 4) (es.map ElementInfo.extent) := by
  induction es generalizing cur with
  | nil => rfl
  | cons e es ih =>
    show (fieldsEnd (alignToArch cur e.align + e.size) es).eval 4 = _
    rw [ih _ fun e' he' => h e' (List.mem_cons_of_mem e he'), ArchitectureSize.eval_add,
      eval_alignToArch cur (h e (List.mem_cons_self ..))]
    rfl

theorem pointers_fieldsEnd (cur : ArchitectureSize)
    (h : 0 < (fieldsEnd cur es).pointers) :
    0 < cur.pointers ∨ ∃ e ∈ es, 4 ≤ e.align.eval 4 ∨ 0 < e.size.pointers := by
  induction es generalizing cur with
  | nil => exact Or.inl h
  | cons e es ih =>
    rcases ih _ h with hcur | ⟨e', he', hor⟩
    · have hsum : 0 < (alignToArch cur e.align).pointers ∨ 0 < e.size.pointers := by
        have hadd : 0 < (alignToArch cur e.align).pointers + e.size.pointers := hcur
        omega
      rcases hsum with hcur | he
      · rcases pointers_alignToArch cur e.align hcur with hcur | he
        · exact Or.inl hcur
        · exact Or.inr ⟨e, List.mem_cons_self .., Or.inl he⟩
      · exact Or.inr ⟨e, List.mem_cons_self .., Or.inr he⟩
    · exact Or.inr ⟨e', List.mem_cons_of_mem e he', hor⟩

section Record

variable (h : ∀ e ∈ es, Natural e)
include h

theorem scale_recordInfo : Scale ((recordInfo es).align.eval 4) := by
  rw [recordInfo_align]
  refine scale_maxAlign fun m hm => ?_
  obtain ⟨e, he, rfl⟩ := List.mem_map.mp hm
  exact (h e he).align

theorem extent_recordInfo : (recordInfo es).extent = structOf (es.map ElementInfo.extent) := by
  have hsize : (recordInfo es).size.eval 4 = roundUp (finish 0 (es.map ElementInfo.extent))
      (maxAlign (es.map ElementInfo.extent)) := by
    show (alignToArch (fieldsEnd default es) (recordInfo es).align).eval 4 = _
    rw [eval_alignToArch _ (scale_recordInfo h),
      eval_fieldsEnd default fun e he => (h e he).align, recordInfo_align,
      ArchitectureSize.eval_default]
  rw [ElementInfo.extent, hsize, recordInfo_align, structOf]

theorem natural_recordInfo : Natural (recordInfo es) where
  align := scale_recordInfo h
  pointers hpos := by
    have hle : ∀ e ∈ es, e.align.eval 4 ≤ (recordInfo es).align.eval 4 := by
      intro e he
      rw [recordInfo_align]
      exact le_maxAlign (List.mem_map_of_mem (f := ElementInfo.extent) he)
    rcases pointers_alignToArch _ _ hpos with hend | halign
    · rcases pointers_fieldsEnd default hend with hcur | ⟨e, he, halign | hsize⟩
      · cases hcur
      · exact Nat.le_trans halign (hle e he)
      · exact Nat.le_trans ((h e he).pointers hsize) (hle e he)
    · exact halign
  multiple := by
    have hext := extent_recordInfo h
    have hsize : (recordInfo es).size.eval 4 = (structOf (es.map ElementInfo.extent)).size := by
      rw [← hext]; rfl
    rw [hsize, recordInfo_align]
    exact dvd_roundUp _ _ (maxAlign_pos _)

end Record

theorem eval_offsetsFrom (cur : ArchitectureSize) (types : List Ty)
    (h : ∀ t ∈ types, Natural t.info) :
    (offsetsFrom cur types).map (fun f => f.1.eval 4) =
      offsets (cur.eval 4) (types.map fun t => t.info.extent) := by
  induction types generalizing cur with
  | nil => rfl
  | cons t types ih =>
    have halign := eval_alignToArch cur (h t (List.mem_cons_self ..)).align
    simp only [offsetsFrom, List.map_cons, offsets]
    rw [ih _ fun t' ht' => h t' (List.mem_cons_of_mem t ht'), ArchitectureSize.eval_add, halign]
    rfl

/-! ## Payloads are unions -/

variable {tag : IntRepr} {arms : List (Option ElementInfo)}

/-- The extents of the payloads. -/
def payloads (arms : List (Option ElementInfo)) : List Extent :=
  arms.reduceOption.map ElementInfo.extent

theorem scale_tag (tag : IntRepr) : Scale tag.bytes := by
  cases tag <;> simp [Scale, IntRepr.bytes]

theorem armsAlign_eval : (armsAlign arms).eval 4 = maxAlign (payloads arms) := by
  have hfold : ∀ cur : Alignment,
      (arms.foldl (fun cur arm => arm.elim cur fun f => cur.max f.align) cur) =
        arms.reduceOption.foldl (fun cur f => cur.max f.align) cur := by
    induction arms with
    | nil => exact fun _ => rfl
    | cons arm arms ih =>
      intro cur
      cases arm with
      | none => exact ih cur
      | some e => exact ih _
  rw [armsAlign, hfold]
  exact foldl_align (.bytes 1) arms.reduceOption

theorem max_eval_cases (s t : ArchitectureSize) :
    s.max t = s ∧ t.eval 4 ≤ s.eval 4 ∨ s.max t = t ∧ s.eval 4 ≤ t.eval 4 ∨
      (0 < s.pointers ∨ 0 < t.pointers) ∧
        (s.max t).eval 4 = roundUp (max (s.eval 4) (t.eval 4)) 4 := by
  by_cases hs : t.eval 4 ≤ s.eval 4 ∧ t.eval 8 ≤ s.eval 8
  · exact Or.inl ⟨by rw [ArchitectureSize.max, if_pos hs], hs.1⟩
  · by_cases ht : s.eval 4 ≤ t.eval 4 ∧ s.eval 8 ≤ t.eval 8
    · exact Or.inr (Or.inl ⟨by rw [ArchitectureSize.max, if_neg hs, if_pos ht], ht.1⟩)
    · refine Or.inr (Or.inr ⟨?_, ArchitectureSize.eval_max hs ht⟩)
      simp only [ArchitectureSize.eval] at hs ht
      omega

theorem roundUp_le_roundUp {n m a : Nat} (ha : 0 < a) (h : n ≤ m) : roundUp n a ≤ roundUp m a :=
  roundUp_le ha (dvd_roundUp m a ha) (Nat.le_trans h (le_roundUp m a))

/-- The size of the largest payload is exact up to its padding. -/
theorem armsSize_fold {u : Nat} (hu : Scale u) (es : List ElementInfo) (cur : ArchitectureSize)
    (m : Nat) (hcur : 0 < cur.pointers → 4 ≤ u) (hm : m ≤ cur.eval 4)
    (hle : cur.eval 4 ≤ roundUp m u) (hes : ∀ e ∈ es, 0 < e.size.pointers → 4 ≤ u) :
    let size := es.foldl (fun cur e => cur.max e.size) cur
    let largest := (es.map ElementInfo.extent).foldl (fun cur e => max cur e.size) m
    largest ≤ size.eval 4 ∧ size.eval 4 ≤ roundUp largest u ∧
      (0 < size.pointers → 4 ≤ u) := by
  induction es generalizing cur m with
  | nil => exact ⟨hm, hle, hcur⟩
  | cons e es ih =>
    have hrest := fun e' he' => hes e' (List.mem_cons_of_mem e he')
    have hgrow : roundUp m u ≤ roundUp (max m (e.size.eval 4)) u :=
      roundUp_le_roundUp hu.pos (Nat.le_max_left ..)
    have hnew : e.size.eval 4 ≤ roundUp (max m (e.size.eval 4)) u :=
      Nat.le_trans (Nat.le_max_right ..) (le_roundUp _ u)
    refine ih (cur.max e.size) (max m (e.size.eval 4)) ?_ ?_ ?_ hrest
    · intro hpos
      rcases max_eval_cases cur e.size with ⟨h, -⟩ | ⟨h, -⟩ | ⟨hsome | hsome, -⟩
      · exact hcur (h ▸ hpos)
      · exact hes e (List.mem_cons_self ..) (h ▸ hpos)
      · exact hcur hsome
      · exact hes e (List.mem_cons_self ..) hsome
    · have := eval_le_max cur e.size
      omega
    · rcases max_eval_cases cur e.size with ⟨h, -⟩ | ⟨h, -⟩ | ⟨hsome, h⟩
      · rw [h]
        exact Nat.le_trans hle hgrow
      · rw [h]
        exact hnew
      · rw [h]
        have hfour : 4 ∣ roundUp (max m (e.size.eval 4)) u := by
          have hu4 : 4 ≤ u := hsome.elim hcur (hes e (List.mem_cons_self ..))
          exact Nat.dvd_trans (scale_four.dvd hu hu4)
            (dvd_roundUp _ u hu.pos)
        refine roundUp_le (by decide) hfour ?_
        exact Nat.max_le.mpr ⟨Nat.le_trans hle hgrow, hnew⟩

section Variant

variable (h : ∀ e, some e ∈ arms → Natural e)
include h

theorem scale_payloads : Scale (maxAlign (payloads arms)) := by
  refine scale_maxAlign fun m hm => ?_
  obtain ⟨e, he, rfl⟩ := List.mem_map.mp hm
  exact (h e (List.reduceOption_mem_iff.mp he)).align

theorem payload_pointers {e : ElementInfo} (he : some e ∈ arms) (hpos : 0 < e.size.pointers) :
    4 ≤ maxAlign (payloads arms) :=
  Nat.le_trans ((h e he).pointers hpos)
    (le_maxAlign (List.mem_map_of_mem (f := ElementInfo.extent) (List.reduceOption_mem_iff.mpr he)))

theorem armsSize_bounds : maxSize (payloads arms) ≤ (armsSize arms).eval 4 ∧
    (armsSize arms).eval 4 ≤ roundUp (maxSize (payloads arms)) (maxAlign (payloads arms)) ∧
    (0 < (armsSize arms).pointers → 4 ≤ maxAlign (payloads arms)) := by
  have hfold : ∀ cur : ArchitectureSize,
      (arms.foldl (fun cur arm => arm.elim cur fun f => cur.max f.size) cur) =
        arms.reduceOption.foldl (fun cur f => cur.max f.size) cur := by
    clear h
    induction arms with
    | nil => exact fun _ => rfl
    | cons arm arms ih =>
      intro cur
      cases arm with
      | none => exact ih cur
      | some e => exact ih _
  rw [armsSize, hfold]
  exact armsSize_fold (scale_payloads h) arms.reduceOption default 0 (fun hpos => by cases hpos)
    (Nat.zero_le _) (Nat.zero_le _)
    fun e he hpos => payload_pointers h (List.reduceOption_mem_iff.mp he) hpos

theorem eval_payloadOffset (tag : IntRepr) :
    (payloadOffsetOf tag arms).eval 4 = roundUp tag.bytes (maxAlign (payloads arms)) := by
  rw [payloadOffsetOf, eval_alignToArch _ (by rw [armsAlign_eval]; exact scale_payloads h),
    armsAlign_eval]
  simp [IntRepr.info, ArchitectureSize.eval]

omit h in
theorem variantInfo_align (tag : IntRepr) :
    (variantInfo tag arms).align.eval 4 = max tag.bytes (maxAlign (payloads arms)) := by
  show (tag.info.align.max (armsAlign arms)).eval 4 = _
  rw [Alignment.eval_max, armsAlign_eval]
  simp [IntRepr.info]

theorem scale_variantInfo (tag : IntRepr) : Scale ((variantInfo tag arms).align.eval 4) := by
  rw [variantInfo_align]
  exact (scale_tag tag).max (scale_payloads h)

/-- The discriminant, then the union of the payloads. -/
theorem extent_variantInfo (tag : IntRepr) : (variantInfo tag arms).extent =
    structOf [⟨tag.bytes, tag.bytes⟩, unionOf (payloads arms)] := by
  have hu := scale_payloads h
  have hlt := (scale_tag tag).pos
  have hpad := armsSize_bounds h
  have hzero : roundUp 0 tag.bytes = 0 := by simp [roundUp]
  have halign : maxAlign [⟨tag.bytes, tag.bytes⟩, unionOf (payloads arms)] =
      max tag.bytes (maxAlign (payloads arms)) := by
    have hpos := maxAlign_pos (payloads arms)
    have hnil : maxAlign [] = 1 := rfl
    rw [maxAlign_cons, maxAlign_cons, hnil]
    show max (max 1 tag.bytes) (max (max 1 (maxAlign (payloads arms))) 1) = _
    omega
  have hsize : (variantInfo tag arms).size.eval 4 =
      roundUp (roundUp tag.bytes (maxAlign (payloads arms)) +
        roundUp (maxSize (payloads arms)) (maxAlign (payloads arms)))
        (max tag.bytes (maxAlign (payloads arms))) := by
    have hbig := (scale_tag tag).max hu
    have hdvd : maxAlign (payloads arms) ∣ max tag.bytes (maxAlign (payloads arms)) :=
      hu.dvd hbig (Nat.le_max_right ..)
    show (alignToArch (payloadOffsetOf tag arms + armsSize arms)
      (variantInfo tag arms).align).eval 4 = _
    rw [eval_alignToArch _ (scale_variantInfo h tag), variantInfo_align,
      ArchitectureSize.eval_add, eval_payloadOffset h]
    have hstart := dvd_roundUp tag.bytes (maxAlign (payloads arms)) hu.pos
    rw [roundUp_roundUp hu.pos hbig.pos hdvd hstart]
    refine roundUp_mono_eq hbig.pos (Nat.add_le_add_left hpad.1 _) ?_
    refine Nat.le_trans (Nat.add_le_add_left hpad.2.1 _) ?_
    rw [← roundUp_add hu.pos hstart]
    exact roundUp_le hu.pos (Nat.dvd_trans hdvd (dvd_roundUp _ _ hbig.pos)) (le_roundUp _ _)
  rw [ElementInfo.extent, hsize, variantInfo_align, structOf, halign]
  simp only [finish, List.foldl_cons, List.foldl_nil, hzero, Nat.zero_add, unionOf]

theorem natural_variantInfo (tag : IntRepr) : Natural (variantInfo tag arms) where
  align := scale_variantInfo h tag
  pointers hpos := by
    have hle : maxAlign (payloads arms) ≤ (variantInfo tag arms).align.eval 4 := by
      rw [variantInfo_align]
      exact Nat.le_max_right ..
    rcases pointers_alignToArch _ _ hpos with hend | halign
    · have hsum : 0 < (payloadOffsetOf tag arms).pointers ∨ 0 < (armsSize arms).pointers := by
        have hadd : 0 < (payloadOffsetOf tag arms).pointers + (armsSize arms).pointers := hend
        omega
      rcases hsum with hoffset | hsize
      · rcases pointers_alignToArch _ _ hoffset with htag | halign
        · cases htag
        · exact Nat.le_trans (armsAlign_eval ▸ halign) hle
      · exact Nat.le_trans ((armsSize_bounds h).2.2 hsize) hle
    · exact halign
  multiple := by
    have hsize : (variantInfo tag arms).size.eval 4 =
        (structOf [⟨tag.bytes, tag.bytes⟩, unionOf (payloads arms)]).size := by
      rw [← extent_variantInfo h]; rfl
    have halign : (variantInfo tag arms).align.eval 4 =
        (structOf [⟨tag.bytes, tag.bytes⟩, unionOf (payloads arms)]).align := by
      rw [← extent_variantInfo h]; rfl
    rw [hsize, halign]
    exact dvd_roundUp _ _ (maxAlign_pos _)

end Variant

end WitBindgen
