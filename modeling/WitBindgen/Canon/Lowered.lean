import WitBindgen.Canon.Stored
import WitBindgen.Canon.Flat

/-!
# Lowering, lifting and giving back flat values

What `lowerFlat` produces: words of the core types its type flattens to, which
`liftFlat` turns back into the value and whose buffers `freeFlat` releases each
once. A case that is narrower than the slots it shares is cast into them and
back.
-/

namespace WitBindgen

open Heap

variable {T : Target}

/-! ## Words of given types -/

/-- The words have these core types, and bits within their widths. -/
def WordsOf (p : Nat) (tys : List WasmType) (ws : List Word) : Prop :=
  ws.map (·.ty) = tys ∧ ∀ w ∈ ws, w.Bounded p

theorem WordsOf.length {p : Nat} {tys : List WasmType} {ws : List Word}
    (h : WordsOf p tys ws) : ws.length = tys.length := by
  rw [← h.1, List.length_map]

theorem WordsOf.cons {p : Nat} {w : Word} {tys : List WasmType} {ws : List Word}
    (hw : w.Bounded p) (h : WordsOf p tys ws) : WordsOf p (w.ty :: tys) (w :: ws) := by
  refine ⟨by rw [List.map_cons, h.1], ?_⟩
  rintro x hx
  rcases List.mem_cons.mp hx with rfl | hx
  · exact hw
  · exact h.2 x hx

theorem WordsOf.nil {p : Nat} : WordsOf p [] [] := ⟨rfl, by simp⟩

theorem WordsOf.append {p : Nat} {tys tys' : List WasmType} {ws ws' : List Word}
    (h : WordsOf p tys ws) (h' : WordsOf p tys' ws') : WordsOf p (tys ++ tys') (ws ++ ws') := by
  refine ⟨by rw [List.map_append, h.1, h'.1], ?_⟩
  intro x hx
  rcases List.mem_append.mp hx with hx | hx
  · exact h.2 x hx
  · exact h'.2 x hx

theorem WordsOf.flatten {p : Nat} {tyss : List (List WasmType)} {wss : List (List Word)}
    (h : List.Forall₂ (WordsOf p) tyss wss) : WordsOf p tyss.flatten wss.flatten := by
  induction h with
  | nil => exact .nil
  | cons h _ ih => exact h.append ih

theorem wordsOf_zeros (p : Nat) (tys : List WasmType) : WordsOf p tys (zeros tys) := by
  refine ⟨by simp [zeros, Function.comp_def], ?_⟩
  intro w hw
  obtain ⟨ty, -, rfl⟩ := List.mem_map.mp hw
  exact Nat.pow_pos (by decide)

theorem disc_bounded (p i : Nat) : (disc i).Bounded p := (BitVec.ofNat 32 i).isLt

/-- Words cast into the slots they join are found there, whatever follows them. -/
theorem castWords_back {p : Nat} (hp : p = 4 ∨ p = 8) {src dst : List WasmType}
    {ws : List Word} (hj : List.Forall₂ WasmType.JoinsInto src (dst.take src.length))
    (hws : WordsOf p src ws) :
    ∃ ws', castWords p src dst ws = some ws' ∧ WordsOf p (dst.take src.length) ws' ∧
      ∀ rest, castWords p dst src (ws' ++ rest) = some ws := by
  induction src generalizing dst ws with
  | nil =>
    obtain rfl : ws = [] := List.map_eq_nil_iff.mp hws.1
    exact ⟨[], rfl, by simpa using WordsOf.nil, fun rest => by simp [castWords]⟩
  | cons a src ih =>
    cases dst with
    | nil => cases hj
    | cons j dst =>
      cases ws with
      | nil => cases hws.1
      | cons w ws =>
        obtain ⟨hty, htys⟩ := List.cons.inj hws.1
        rw [List.length_cons, List.take_succ_cons] at hj ⊢
        obtain ⟨haj, hrest⟩ := List.forall₂_cons.mp hj
        obtain ⟨w', hcast, hty', hb', hback⟩ :=
          castWord_back hp haj hty (hws.2 w List.mem_cons_self)
        obtain ⟨ws', hcasts, hws', hbacks⟩ :=
          ih hrest ⟨htys, fun x hx => hws.2 x (List.mem_cons_of_mem _ hx)⟩
        refine ⟨w' :: ws', ?_, hty' ▸ hws'.cons hb', fun rest => ?_⟩
        · simp only [castWords] at hcasts
          simp [castWords, List.mapM_cons, hcast, hcasts]
        · have := hbacks rest
          simp only [castWords] at this
          simp [castWords, List.mapM_cons, hback, this]

/-! ## Lowered values -/

/-- The value `v` of type `t` can be lowered, and is then held by its words. -/
def Lowered (T : Target) (t : Ty) (v : Val) : Prop :=
  Realizes T.A 0 0 (requests T t v) (lowerFlat T t v) fun ws news w =>
    WordsOf T.p (T.W.pushFlat t) ws ∧
    Held (liftFlat T t ws) (fun what => freeFlat T what t ws) v (requests T t v)
      (fun what => drops what t v) news w

/-- Values lowered one after the other. -/
theorem realizes_lowerEach (types : List Ty) (vs : List Val) (hlen : vs.length = types.length)
    (h : ∀ x ∈ types.zip vs, Lowered T x.1 x.2) :
    Realizes T.A 0 0 ((types.zip vs).map fun x => requests T x.1 x.2).flatten
      ((types.zip vs).mapM fun x => lowerFlat T x.1 x.2) fun wss news w =>
      List.Forall₂ (WordsOf T.p) (types.map T.W.pushFlat) wss ∧
      Held ((types.zip wss).mapM fun x => liftFlat T x.1 x.2)
        (fun what => (types.zip wss).forM fun x => freeFlat T what x.1 x.2) vs
        ((types.zip vs).map fun x => requests T x.1 x.2).flatten
        (fun what => ((types.zip vs).map fun x => drops what x.1 x.2).flatten) news w := by
  have hfst : (types.zip vs).map Prod.fst = types := List.map_fst_zip (by rw [hlen])
  have hsnd : (types.zip vs).map Prod.snd = vs := List.map_snd_zip (by rw [hlen])
  have heach := Realizes.each (A := T.A) (a := 0) (k := 0) (types.zip vs) (fun _ => 0)
    (fun _ => 0) (fun x => requests T x.1 x.2) (fun x => lowerFlat T x.1 x.2)
    (fun x ws => liftFlat T x.1 ws) (fun x ws what => freeFlat T what x.1 ws) (fun x => x.2)
    (fun x what => drops what x.1 x.2) (fun x ws => WordsOf T.p (T.W.pushFlat x.1) ws)
    h (fun _ _ => ⟨Nat.le_refl _, Nat.le_refl _⟩)
    (List.pairwise_of_forall fun _ _ => Nat.le_refl _)
  refine heach.mono ?_
  rintro wss news w - ⟨hwords, hheld⟩
  have hzip : ((types.zip vs).zip wss).map (fun x => (x.1.1, x.2)) = types.zip wss := by
    conv_rhs => rw [← hfst, List.zip_map_left]
    rfl
  refine ⟨?_, ?_, fun what => ?_⟩
  · have hmap : types.map T.W.pushFlat = (types.zip vs).map fun x => T.W.pushFlat x.1 := by
      conv_lhs => rw [← hfst, List.map_map]
      rfl
    rw [hmap]
    exact List.forall₂_map_left_iff.mpr hwords
  · have hread := hheld.read
    rw [hsnd] at hread
    rw [← hzip, List.mapM_map]
    exact hread
  · obtain ⟨order, hrun, hperm⟩ := hheld.free what
    refine ⟨order, Eq.trans ?_ hrun, hperm⟩
    rw [← hzip]
    simp [List.forM_map]

theorem zip_replicate_left {α β : Type} (x : α) (ys : List β) :
    (List.replicate ys.length x).zip ys = ys.map fun y => (x, y) := by
  induction ys with
  | nil => rfl
  | cons y ys ih => simp [List.replicate_succ, ih]

/-- Cutting the words of several types apart. -/
theorem chunks_of_wordsOf {p : Nat} {tyss : List (List WasmType)} {wss : List (List Word)}
    (h : List.Forall₂ (WordsOf p) tyss wss) :
    chunks (tyss.map List.length) wss.flatten = wss := by
  have hlens : tyss.map List.length = wss.map List.length := by
    induction h with
    | nil => rfl
    | cons h _ ih => simp only [List.map_cons, ih, h.length]
  rw [hlens, chunks_flatten]

theorem lowered_fields (hT : T.W.Lawful T.p) {ty : Ty} {types : List Ty} {v : Val}
    (hf : ty.fieldTypes = some types) (hv : Fits v ty)
    (ih : ∀ t ∈ types, ∀ x, Fits x t → Lowered T t x) : Lowered T ty v := by
  obtain ⟨vs, rfl, hlen, hvs⟩ := hv.fieldValues hf
  have hlower : lowerFlat T ty (.record vs) = List.flatten <$>
      ((types.zip vs).mapM fun x => lowerFlat T x.1 x.2) := by
    rw [lowerFlat_fields hf, lowerFields, List.length_map, Val.asRecord, if_pos hlen,
      require_some, pure_bind, List.zip_map_left, List.mapM_map, map_eq_pure_bind]
    rfl
  have hreqs : requests T ty (.record vs) =
      ((types.zip vs).map fun x => requests T x.1 x.2).flatten := by
    rw [requests_fields hf, collectFields_record hlen]
  have hdrops : ∀ what, drops what ty (.record vs) =
      ((types.zip vs).map fun x => drops what x.1 x.2).flatten := fun what => by
    rw [drops_fields hf, collectFields_record hlen]
  unfold Lowered
  rw [hlower, hreqs]
  refine (realizes_lowerEach types vs hlen fun x hx =>
    ih x.1 (List.of_mem_zip hx).1 x.2 (hvs x hx)).map fun wss news w _ hobs => ?_
  obtain ⟨hwords, hheld⟩ := hobs
  have hpieces : chunks (types.map fun t => (T.W.pushFlat t).length) wss.flatten = wss := by
    have := chunks_of_wordsOf hwords
    rwa [List.map_map] at this
  refine ⟨by rw [hT.flat_fields ty types hf]; exact WordsOf.flatten hwords, ?_⟩
  have hmapped := hheld.map (f := fun vs => pure (Val.record vs)) (u := .record vs) rfl
  simp only [← hdrops] at hmapped
  have hlens : ∀ {β : Type} (g : Ty → β), ((types.map fun t => (t, g t)).map
      fun m => (T.W.pushFlat m.1).length) = types.map fun t => (T.W.pushFlat t).length := by
    intro β g; rw [List.map_map]; rfl
  refine ⟨Eq.trans ?_ hmapped.read, fun what => ?_⟩
  · rw [liftFlat_fields hf, liftFields, hlens, hpieces, List.zip_map_left, List.mapM_map]
    rfl
  · obtain ⟨order, hrun, hperm⟩ := hmapped.free what
    refine ⟨order, Eq.trans ?_ hrun, hperm⟩
    rw [freeFlat_fields hf, freeFlatFields, hlens, hpieces, List.zip_map_left]
    simp [List.forM_map]

theorem lowered_arms (hT : T.W.Lawful T.p) {ty : Ty} {arms : List (Option Ty)} {v : Val}
    (ha : ty.arms = some arms) (hlen : arms.length ≤ 2 ^ 32) (hv : Fits v ty)
    (ih : ∀ t, some t ∈ arms → ∀ x, Fits x t → Lowered T t x) : Lowered T ty v := by
  obtain ⟨slots, hflat, hjoin⟩ := hT.flat_arms ty arms ha
  have hslots : T.slotTys ty = slots := by rw [Target.slotTys, hflat, List.tail_cons]
  obtain ⟨i, hi, hcase⟩ := hv.armValue ha
  have hbits : (disc i).bits = i := disc_bits (Nat.lt_of_lt_of_le hi hlen)
  have hdisc : ∀ ws : List Word, bitsOf .i32 ((disc i :: ws).take 1) = some i := by
    intro ws
    show (if (disc i).ty = .i32 then some (disc i).bits else none) = some i
    rw [hbits]; rfl
  unfold Lowered
  rw [hflat]
  rcases hcase with ⟨harm, rfl, has⟩ | ⟨t, x, ht, harm, hx, rfl, has⟩
  · have hreqs : requests T ty (.variant i none) = [] := by
      rw [requests_arms ha, collectArm, Val.asVariant_map, has]; rfl
    have hevs : ∀ what, drops what ty (.variant i none) = [] := fun what => by
      rw [drops_arms ha, collectArm, Val.asVariant_map, has]; rfl
    have hlower : lowerFlat T ty (.variant i none) = pure (disc i :: zeros slots) := by
      rw [lowerFlat_arms ha, lowerArm, Val.asVariant_map, has, hslots]; rfl
    rw [hlower, hreqs]
    refine (Realizes.pure _).mono ?_
    rintro ws news w - ⟨rfl, rfl⟩
    refine ⟨(wordsOf_zeros _ _).cons (disc_bounded _ _), ?_, fun what =>
      ⟨[], ?_, by simp [releasedOf]⟩⟩
    · rw [liftFlat_arms ha, liftArm, hdisc, require_some, pure_bind, List.getElem?_map, harm]
      rfl
    · rw [hevs, World.after_nil, freeFlat_arms ha, freeFlatArm, hdisc, require_some, pure_bind,
        List.getElem?_map, harm]
      rfl
  · obtain ⟨hfit, hjoins⟩ := hjoin t ht
    have hreqs : requests T ty (.variant i (some x)) = requests T t x := by
      rw [requests_arms ha, collectArm, Val.asVariant_map, has]; rfl
    have hevs : ∀ what, drops what ty (.variant i (some x)) = drops what t x := fun what => by
      rw [drops_arms ha, collectArm, Val.asVariant_map, has]; rfl
    have hlower : lowerFlat T ty (.variant i (some x)) = (lowerFlat T t x >>= fun ws =>
        (require (castWords T.p (T.W.pushFlat t) slots ws) >>= fun ws' =>
          pure (disc i :: (ws' ++ zeros (slots.drop (T.W.pushFlat t).length))))) := by
      rw [lowerFlat_arms ha, lowerArm, Val.asVariant_map, has, hslots]; rfl
    -- casting and padding allocate nothing
    have hpad : ∀ ws, WordsOf T.p (T.W.pushFlat t) ws → Realizes (ε := Event) T.A 0 0 []
        (require (castWords T.p (T.W.pushFlat t) slots ws) >>= fun ws' =>
          pure (disc i :: (ws' ++ zeros (slots.drop (T.W.pushFlat t).length))))
        fun ws₂ news _ => news = [] ∧ ∃ ws',
          WordsOf T.p (slots.take (T.W.pushFlat t).length) ws' ∧
          ws₂ = disc i :: (ws' ++ zeros (slots.drop (T.W.pushFlat t).length)) ∧
          ∀ rest, castWords T.p slots (T.W.pushFlat t) (ws' ++ rest) = some ws := by
      intro ws hws
      obtain ⟨ws', hcast, hws', hback⟩ := castWords_back hT.width hjoins hws
      rw [hcast, require_some, pure_bind]
      refine (Realizes.pure _).mono ?_
      rintro ws₂ news w - ⟨rfl, rfl⟩
      exact ⟨rfl, ws', hws', rfl, hback⟩
    have hbind := Realizes.bind (a := 0) (k := 0) (ih t ht x hx)
      (fun ws hws => hpad ws hws.choose_spec.choose_spec.1)
      Inside.empty Inside.empty (Or.inl (Nat.le_refl _))
    rw [List.append_nil, ← hlower, ← hreqs] at hbind
    refine hbind.mono ?_
    rintro _ news w - ⟨ws, n₁, n₂, rfl, -, -, ⟨-, hheld⟩, hcast⟩
    obtain ⟨rfl, ws', hws', rfl, hback⟩ := hcast [] [] (by simp)
    have hunjoin : ∀ rest, unjoin T slots t (ws' ++ rest) = pure ws := fun rest => by
      rw [unjoin, hback]; rfl
    rw [List.append_nil]
    refine ⟨?_, ?_, fun what => ?_⟩
    · refine WordsOf.cons (disc_bounded _ _) ?_
      have happ := hws'.append (wordsOf_zeros T.p (slots.drop (T.W.pushFlat t).length))
      rwa [List.take_append_drop] at happ
    · rw [liftFlat_arms ha, liftArm, hdisc, hslots, require_some, pure_bind,
        List.getElem?_map, harm]
      show (unjoin T slots t (ws' ++ _) >>= fun ws' => liftFlat T t ws' >>= fun x =>
        pure (Val.variant i (some x))) w = _
      rw [hunjoin, pure_bind, run_bind_ok hheld.read]
      rfl
    · obtain ⟨order, hrun, hperm⟩ := hheld.free what
      refine ⟨order, ?_, hperm⟩
      rw [hevs, freeFlat_arms ha, freeFlatArm, hdisc, hslots, require_some, pure_bind,
        List.getElem?_map, harm]
      show (unjoin T slots t (ws' ++ _) >>= fun ws' => freeFlat T what t ws') w = _
      rw [hunjoin, pure_bind, hrun]

/-- A value that is one word and owns nothing but, perhaps, a handle. -/
theorem lowered_word {t : Ty} {v : Val} (word : Word)
    (hflat : T.W.pushFlat t = [word.ty]) (hb : word.Bounded T.p)
    (hlower : lowerFlat T t v = pure [word]) (hlift : liftFlat T t [word] = pure v)
    (hreqs : requests T t v = [])
    (hfree : ∀ what w, freeFlat T what t [word] w = .ok ((), w.after [] (drops what t v))) :
    Lowered T t v := by
  unfold Lowered
  rw [hlower, hreqs, hflat]
  refine (Realizes.pure _).mono ?_
  rintro ws news w - ⟨rfl, rfl⟩
  exact ⟨WordsOf.nil.cons hb, by rw [hlift]; rfl, fun what =>
    ⟨[], hfree what w, by simp [releasedOf]⟩⟩

/-- A pointer and a length as words. -/
theorem lowered_pair {t : Ty} {v : Val} (make : Exec Event (Nat × Nat))
    (load : Nat × Nat → Exec Event Val) (free : Deallocate → Nat × Nat → Exec Event Unit)
    (hflat : T.W.pushFlat t = [.pointer, .length])
    (hlower : lowerFlat T t v = (make >>= fun x => pure (pairWords x)))
    (hlift : ∀ x, liftFlat T t (pairWords x) = load x)
    (hfree : ∀ what x, freeFlat T what t (pairWords x) = free what x)
    (h : Realizes T.A 0 0 (requests T t v) make fun x news w =>
      (x.1 < 256 ^ T.p ∧ x.2 < 256 ^ T.p) ∧
      Held (load x) (free · x) v (requests T t v) (fun what => drops what t v) news w) :
    Lowered T t v := by
  unfold Lowered
  rw [hlower, ← map_eq_pure_bind, hflat]
  refine h.map fun x news w _ hobs => ?_
  obtain ⟨⟨hptr, hlen⟩, hheld⟩ := hobs
  refine ⟨(WordsOf.nil.cons (w := ⟨.length, x.2⟩) hlen).cons (w := ⟨.pointer, x.1⟩) hptr, ?_⟩
  simp only [hlift, hfree]
  exact hheld

theorem handle_bounded (p : Nat) (x : BitVec 32) : (⟨.i32, x.toNat⟩ : Word).Bounded p := x.isLt

theorem liftHandle_word (x : BitVec 32) : liftHandle [⟨.i32, x.toNat⟩] = pure (.handle x) := by
  show (pure (.handle (BitVec.ofNat 32 x.toNat)) : Exec Event Val) = _
  rw [BitVec.ofNat_toNat, BitVec.setWidth_eq]

theorem freeHandle_word (what : Deallocate) (ty : Ty) (x : BitVec 32) (w : World Event) :
    freeHandle what ty [⟨.i32, x.toNat⟩] w =
      .ok ((), w.after [] (dropOf what ty (.handle x))) := by
  rw [freeHandle, liftHandle_word, pure_bind]
  cases what with
  | lists => simp [Deallocate.handles, dropOf]
  | listsAndOwn => exact note_after w _

/-- Every value of a supported type can be lowered, and is held by its words. -/
theorem lowered (hT : T.W.Lawful T.p) {ty : Ty} (hs : ty.Supported) :
    ∀ v, Fits v ty → Lowered T ty v := by
  induction ty using Ty.ind with
  | prim q =>
    intro v hv
    obtain ⟨n, hn⟩ := Prim.encode_of_holds hv.of_prim
    refine lowered_word ⟨q.flat, n⟩ (hT.flat_prim q) (Prim.encode_lt T.p hn) ?_ ?_
      (by simp [requests]) fun what w => by simp [freeFlat, drops]
    · rw [lowerFlat, hn]; rfl
    · have hbits : bitsOf q.flat [⟨q.flat, n⟩] = some n := by simp [bitsOf]
      rw [liftFlat, hbits, require_some, pure_bind, Prim.decode_encode hn]; rfl
  | string =>
    intro v hv
    obtain ⟨s, rfl⟩ := hv.of_string
    have hreqs : requests T .string (.string s) = [⟨(stringBytes s).length, 1, true⟩] := by
      rw [requests]; rfl
    refine lowered_pair (lowerString T s) liftString (fun _ x => release ⟨x.1, x.2, 1⟩)
      hT.flat_string (by rw [lowerFlat]; rfl)
      (fun x => by rw [liftFlat]; rfl) (fun what x => by rw [freeFlat]; rfl) ?_
    rw [hreqs]
    simpa only [drops] using realizes_string (T := T) (a := 0) s
  | errorContext =>
    intro v hv
    obtain ⟨x, rfl⟩ := hv.of_errorContext
    exact lowered_word ⟨.i32, x.toNat⟩ hT.flat_errorContext (handle_bounded _ x)
      (by rw [lowerFlat]; rfl) (by rw [liftFlat]; exact liftHandle_word x)
      (by simp [requests]) fun what w => by simp [freeFlat, drops]
  | type id t ih =>
    intro v hv
    have hbase := ih hs.of_type v hv.of_type
    simp only [Lowered, lowerFlat, liftFlat, freeFlat, requests, drops, hT.flat_type] at *
    exact hbase
  | list id t ih =>
    intro v hv
    obtain ⟨vs, rfl, hvs⟩ := hv.of_list
    have hbuffer := realizes_buffer (T := T) (a := 0) (T.size t) (T.align t) vs
      (requests T t) (store T t) (load T t) (fun what => freeMem T what t)
      (fun v what => drops what t v) fun x hx a => stored hT hs.of_list x (hvs x hx) a
    refine lowered_pair (lowerBuffer T (T.size t) (T.align t) (vs.map (store T t)))
      (fun x => do
        let vs ← loadBuffer (T.size t) (load T t) x
        pure (Val.list vs))
      (fun what => freeBuffer (T.size t) (T.align t) (freeMem T what t)) (hT.flat_list id t)
      (by rw [lowerFlat]; rfl) (fun x => by rw [liftFlat]; rfl)
      (fun what x => by rw [freeFlat]; rfl) ?_
    simp only [requests, drops]
    exact hbuffer.mono fun x news w _ hobs => ⟨hobs.1, hobs.2.map rfl⟩
  | map id k t ihk iht =>
    intro v hv
    obtain ⟨es, rfl, hes⟩ := hv.of_map
    have hbuffer := realizes_buffer (T := T) (a := 0) (T.entrySize k t)
      (T.entryAlign k t) es (fun e => requests T k e.1 ++ requests T t e.2)
      (fun e => storeEntry (T.valueOffset k t) (store T k e.1) (store T t e.2))
      (loadEntry (T.valueOffset k t) (load T k) (load T t))
      (fun what => freeEntry (T.valueOffset k t) (freeMem T what k) (freeMem T what t))
      (fun e what => drops what k e.1 ++ drops what t e.2) fun e he a =>
        stored_entry hT (stored hT hs.of_map.1 e.1 (hes e he).1)
          (stored hT hs.of_map.2 e.2 (hes e he).2)
    refine lowered_pair (lowerBuffer T (T.entrySize k t) (T.entryAlign k t) (es.map fun e =>
        storeEntry (T.valueOffset k t) (store T k e.1) (store T t e.2)))
      (fun x => do
        let es ← loadBuffer (T.entrySize k t)
          (loadEntry (T.valueOffset k t) (load T k) (load T t)) x
        pure (Val.map es))
      (fun what => freeBuffer (T.entrySize k t) (T.entryAlign k t)
        (freeEntry (T.valueOffset k t) (freeMem T what k) (freeMem T what t)))
      (hT.flat_map id k t) (by rw [lowerFlat]; rfl) (fun x => by rw [liftFlat]; rfl)
      (fun what x => by rw [freeFlat]; rfl) ?_
    simp only [requests, drops]
    exact hbuffer.mono fun x news w _ hobs => ⟨hobs.1, hobs.2.map rfl⟩
  | fixedLengthList id t n ih =>
    intro v hv
    obtain ⟨vs, rfl, rfl, hvs⟩ := hv.of_fixedLengthList
    have hzip := zip_replicate_left t vs
    have hmap : ∀ {β : Type} (g : Ty → Val → β),
        ((List.replicate vs.length t).zip vs).map (fun x => g x.1 x.2) = vs.map (g t) := by
      intro β g; rw [hzip, List.map_map]; rfl
    have heach := realizes_lowerEach (T := T) (List.replicate vs.length t) vs
      (by simp) fun x hx => by
        obtain ⟨ht, hmem⟩ := List.of_mem_zip hx
        rw [(List.mem_replicate.mp ht).2]
        exact ih hs.of_fixedLengthList x.2 (hvs x.2 hmem)
    have hreqs : requests T (.fixedLengthList id t vs.length) (.list vs) =
        ((vs.map (requests T t)).flatten).map Request.keep := by
      rw [requests, Val.asFixed, if_pos rfl]
    have hlower : lowerFlat T (.fixedLengthList id t vs.length) (.list vs) = List.flatten <$>
        (((List.replicate vs.length t).zip vs).mapM fun x => lowerFlat T x.1 x.2) := by
      rw [lowerFlat, Val.asFixed, if_pos rfl, require_some, pure_bind, hzip, List.mapM_map,
        map_eq_pure_bind]
      rfl
    simp only [hmap] at heach
    unfold Lowered
    rw [hlower, hreqs]
    refine heach.keep.map fun wss news w _ hobs => ?_
    obtain ⟨hwords, hheld⟩ := hobs
    have hpieces := chunks_of_wordsOf hwords
    simp only [List.map_replicate] at hpieces hwords
    have hwslen : wss.length = vs.length := by
      have := hwords.length_eq
      simpa using this.symm
    refine ⟨by rw [hT.flat_fixedLengthList]; exact WordsOf.flatten hwords, ?_⟩
    have hmapped := hheld.map (f := fun vs => pure (Val.list vs)) (u := .list vs) rfl
    have hkept := hmapped.keep
      (fun what => freeFlat T what (.fixedLengthList id t vs.length) wss.flatten)
      fun what => by simp [freeFlat]
    rw [← hwslen, zip_replicate_left, List.mapM_map, hwslen] at hkept
    simp only [liftFlat, hpieces, drops]
    exact hkept
  | fields ty types hf ih =>
    intro v hv
    exact lowered_fields hT hf hv fun t ht x hx => ih t ht (hs.of_fields hf t ht) x hx
  | flags id name names =>
    intro v hv
    obtain ⟨bs, rfl, hlen⟩ := hv.of_flags
    have hfit := hT.flags_fit names.length
    have hbits : flagBits names.length (flagWords (T.W.flagsRepr names.length).count bs) =
        bs := by
      rw [← hlen] at hfit ⊢
      apply flagBits_flagWords
      cases hrepr : T.W.flagsRepr bs.length <;>
        simp only [hrepr, FlagsRepr.wordBytes, FlagsRepr.count] at hfit ⊢ <;> omega
    have hlower : lowerFlat T (.flags id name names) (.flags bs) =
        pure ((flagWords (T.W.flagsRepr names.length).count bs).map fun w => ⟨.i32, w⟩) := by
      rw [lowerFlat, Val.asFlags, if_pos hlen]; rfl
    unfold Lowered
    rw [hlower, show requests T (.flags id name names) (.flags bs) = [] by simp [requests]]
    refine (Realizes.pure _).mono ?_
    rintro ws news w - ⟨rfl, rfl⟩
    have hi32 : i32sOf (T.W.flagsRepr names.length).count
        ((flagWords (T.W.flagsRepr names.length).count bs).map fun w => (⟨.i32, w⟩ : Word)) =
        some (flagWords (T.W.flagsRepr names.length).count bs) := by
      rw [i32sOf, if_pos]
      · simp [Function.comp_def]
      · exact ⟨by simp, by simp⟩
    refine ⟨⟨?_, ?_⟩, ?_, fun what => ⟨[], by simp [freeFlat, drops], by simp [releasedOf]⟩⟩
    · rw [hT.flat_flags, List.map_map]
      simp [Function.comp_def, List.map_const']
    · intro x hx
      obtain ⟨n, hn, rfl⟩ := List.mem_map.mp hx
      have hlt := flagWords_lt (T.W.flagsRepr names.length)
        (by rw [hlen]; exact hfit) n hn
      refine Nat.lt_of_lt_of_le hlt ?_
      cases T.W.flagsRepr names.length <;> simp [FlagsRepr.wordBytes, WasmType.bytes]
    · rw [liftFlat, hi32, require_some, pure_bind, hbits]
      rfl
  | arms ty arms ha ih =>
    intro v hv
    obtain ⟨hlen, hsub⟩ := hs.of_arms ha
    exact lowered_arms hT ha hlen hv fun t ht x hx => ih t ht (hsub t ht) x hx
  | enum id name cases =>
    intro v hv
    obtain ⟨i, rfl, hi⟩ := hv.of_enum
    have hbits : bitsOf .i32 [disc i] = some i := by
      show (if (disc i).ty = .i32 then some (disc i).bits else none) = some i
      rw [disc_bits (Nat.lt_of_lt_of_le hi hs.of_enum)]; rfl
    refine lowered_word (disc i) (hT.flat_enum id name cases) (disc_bounded _ _) ?_ ?_
      (by simp [requests]) fun what w => by simp [freeFlat, drops]
    · rw [lowerFlat, Val.asEnum, if_pos hi]; rfl
    · rw [liftFlat, hbits, require_some, pure_bind, enumVal, if_pos hi]; rfl
  | handle id hd name =>
    intro v hv
    obtain ⟨x, rfl⟩ := hv.of_handle
    refine lowered_word ⟨.i32, x.toNat⟩ (hT.flat_handle id hd name)
      (handle_bounded _ x) (by rw [lowerFlat]; rfl)
      (by rw [liftFlat]; exact liftHandle_word x) (by simp [requests]) fun what w => ?_
    cases hd with
    | own r =>
      rw [freeFlat, drops]
      exact freeHandle_word what _ x w
    | borrow r => simp [freeFlat, drops]
  | future id t =>
    intro v hv
    obtain ⟨x, rfl⟩ := hv.of_future
    refine lowered_word ⟨.i32, x.toNat⟩ (hT.flat_future id t)
      (handle_bounded _ x) (by rw [lowerFlat]; rfl)
      (by rw [liftFlat]; exact liftHandle_word x) (by simp [requests]) fun what w => ?_
    rw [freeFlat, drops]
    exact freeHandle_word what _ x w
  | stream id t =>
    intro v hv
    obtain ⟨x, rfl⟩ := hv.of_stream
    refine lowered_word ⟨.i32, x.toNat⟩ (hT.flat_stream id t)
      (handle_bounded _ x) (by rw [lowerFlat]; rfl)
      (by rw [liftFlat]; exact liftHandle_word x) (by simp [requests]) fun what w => ?_
    rw [freeFlat, drops]
    exact freeHandle_word what _ x w
  | resource id => exact absurd hs Ty.not_supported_resource
  | unknown id => exact absurd hs Ty.not_supported_unknown

end WitBindgen
