import WitBindgen.Go.FunctionGenerator
import WitBindgen.Library.Outcome

/-!
# What the Go generator adds to its text

An emitter adds statements to the text at the level it runs at and touches nothing below.
While it lowers, these pin buffers only where there is a list to lower, and load nothing unless
an operand does; while it lifts, they load and do nothing else.
-/

namespace WitBindgen.Go

open Trace

/-- Whether loads are allowed, and whether pinning is. -/
def Act.Allowed (loads pins : Prop) : Act → Prop
  | .load => loads
  | .pin | .allocate => pins
  | _ => False

/-- A text that does only what is allowed, and whose branches have arms if `armed` says so. -/
structure Fine (loads pins armed : Prop) (t : Text Act) : Prop where
  all : t.All (Act.Allowed loads pins)
  inhabited : armed → t.Inhabited

/-- An operand that loads only where loads are allowed. -/
def FineOperand (loads : Prop) (op : Operand) : Prop := op ≠ 0 → loads

section
variable {loads pins armed : Prop} {t u : Text Act}

namespace Fine

theorem nil : Fine loads pins armed [] := ⟨.nil, fun _ => .nil⟩

theorem append (h : Fine loads pins armed t) (h' : Fine loads pins armed u) :
    Fine loads pins armed (t ++ u) :=
  ⟨h.all.append h'.all, fun ha => (h.inhabited ha).append (h'.inhabited ha)⟩

theorem act {a : Act} (h : a.Allowed loads pins) : Fine loads pins armed [.act a] :=
  ⟨.single h, fun _ => .acts [a]⟩

theorem loop (h : Fine loads pins armed t) : Fine loads pins armed [.loop t] :=
  ⟨.loop h.all, fun ha => .loop (h.inhabited ha)⟩

theorem branch {arms : List (Text Act)} (hne : armed → arms ≠ [])
    (h : ∀ arm ∈ arms, Fine loads pins armed arm) : Fine loads pins armed [.branch arms] :=
  ⟨.branch fun arm harm => (h arm harm).all,
    fun ha => .branch (hne ha) fun arm harm => (h arm harm).inhabited ha⟩

theorem evaluate {op : Operand} (h : FineOperand loads op) :
    Fine loads pins armed (evaluate op) := by
  refine ⟨.acts fun a ha => ?_, fun _ => .acts _⟩
  obtain ⟨hne, rfl⟩ := List.mem_replicate.mp ha
  exact h hne

theorem evaluateAll {ops : List Operand} (h : ∀ o ∈ ops, FineOperand loads o) :
    Fine loads pins armed (evaluateAll ops) := by
  induction ops with
  | nil => exact nil
  | cons o ops ih =>
    obtain ⟨ho, hops⟩ := List.forall_mem_cons.mp h
    exact (evaluate ho).append (ih hops)

theorem mono {pins' : Prop} (hp : pins → pins') (h : Fine loads pins armed t) :
    Fine loads pins' armed t := by
  refine ⟨h.all.mono fun a ha => ?_, h.inhabited⟩
  cases a <;> first | exact ha | exact hp ha

end Fine

/-- A finished block whose text and whose results are fine. -/
structure FineBlock (loads pins armed : Prop) (b : Block) : Prop where
  text : Fine loads pins armed b.1
  results : ∀ o ∈ b.2, FineOperand loads o

theorem FineBlock.mono {pins' : Prop} (hp : pins → pins') {b : Block}
    (h : FineBlock loads pins armed b) : FineBlock loads pins' armed b := ⟨h.text.mono hp, h.results⟩

theorem fine_assignments (n : Nat) {results : List Operand}
    (h : ∀ o ∈ results, FineOperand loads o) : Fine loads pins armed (assignments n results) :=
  .evaluateAll fun o ho => h o (List.mem_of_mem_take ho)

theorem fine_lowerCase {value : Operand} (hvalue : FineOperand loads value) (n : Nat) (p : Bool)
    {b : Block} (h : FineBlock loads pins armed b) :
    Fine loads pins armed (lowerCase value n p b) := by
  refine (Fine.append ?_ h.text).append (fine_assignments n h.results)
  cases p with
  | false => exact .nil
  | true => exact .evaluate hvalue

theorem fine_liftCase {p : Bool} {b : Block} (h : FineBlock loads pins armed b)
    (hcase : liftCase p b = .ok t) : Fine loads pins armed t := by
  unfold liftCase at hcase
  split at hcase <;> cases hcase
  exact h.text.append (.evaluateAll fun o ho => h.results o (List.mem_of_mem_take ho))

theorem fine_countedLoop {length : Operand} (hlength : FineOperand loads length)
    (h : Fine loads pins armed t) : Fine loads pins armed (countedLoop length t) :=
  ((Fine.evaluate hlength).append ((Fine.evaluate hlength).append h).loop).append
    (.evaluate hlength)

/-- Whatever is rendered is fine. -/
def FineRendered (loads pins armed : Prop) (r : Rendered) : Prop :=
  ∀ stmts results, r = .ok (stmts, results) →
    Fine loads pins armed stmts ∧ ∀ o ∈ results, FineOperand loads o

theorem fineOperand_zero : FineOperand loads 0 := fun h => absurd rfl h

theorem FineRendered.ok {results : List Operand} (h : Fine loads pins armed t)
    (h' : ∀ o ∈ results, FineOperand loads o) : FineRendered loads pins armed (.ok (t, results)) := by
  rintro _ _ ⟨⟩
  exact ⟨h, h'⟩

theorem FineRendered.results {r : Rendered} {results : List Operand}
    (h : FineRendered loads False False r) (hr : r = .ok (t, results)) :
    ∀ o ∈ results, FineOperand loads o := (h _ _ hr).2

theorem FineRendered.error {p : Panic} : FineRendered loads pins armed (.error p) := nofun

/-- Results that are names of variables. -/
theorem fineOperand_replicate (n : Nat) : ∀ o ∈ List.replicate n 0, FineOperand loads o := by
  intro o ho
  rw [List.eq_of_mem_replicate ho]
  exact fineOperand_zero

/-! ## The arms -/

section
variable {ops : List Operand} (hops : ∀ o ∈ ops, FineOperand loads o)
include hops

theorem unary_fine : FineRendered loads pins armed (unary ops) := by
  match ops, hops with
  | [op], hops => exact .ok .nil hops
  | [], _ | _ :: _ :: _, _ => exact .error

theorem store_fine : FineRendered loads pins armed (store ops) := by
  match ops, hops with
  | [src, pointer], hops =>
    have hsrc := hops src (by simp)
    have hpointer := hops pointer (by simp)
    exact .ok ((Fine.evaluate hpointer).append (.evaluate hsrc)) nofun
  | [], _ | [_], _ | _ :: _ :: _ :: _, _ => exact .error

omit hops in
theorem load_fine (h : loads) (ops : List Operand) : FineRendered loads pins armed (load ops) := by
  match ops with
  | [pointer] => exact .ok .nil fun _ _ _ => h
  | [] | _ :: _ :: _ => exact .error

theorem pinInPlace_fine (h : pins) : FineRendered loads pins armed (pinInPlace ops) := by
  match ops, hops with
  | [value], hops =>
    have hvalue := hops value (by simp)
    refine .ok ((Fine.evaluate hvalue).append (Fine.act h)) ?_
    exact List.forall_mem_cons.mpr ⟨fineOperand_zero, hops⟩
  | [], _ | _ :: _ :: _, _ => exact .error

theorem viewInPlace_fine : FineRendered loads pins armed (viewInPlace ops) := by
  match ops, hops with
  | [pointer, length], hops =>
    have hpointer := hops pointer (by simp)
    have hlength := hops length (by simp)
    exact .ok ((Fine.evaluate hpointer).append (.evaluate hlength)) (fineOperand_replicate 1)
  | [], _ | [_], _ | _ :: _ :: _ :: _, _ => exact .error

theorem lowerFields_fine (n : Nat) : FineRendered loads pins armed (lowerFields n ops) := by
  match ops, hops with
  | [op], hops =>
    refine .ok .nil fun o ho => ?_
    rw [List.eq_of_mem_replicate ho]
    exact hops op (by simp)
  | [], _ | _ :: _ :: _, _ => exact .error

theorem sum_fine : FineOperand loads ops.sum := by
  intro hne
  obtain ⟨o, ho, hpos⟩ : ∃ o ∈ ops, o ≠ 0 := by
    by_contra hall
    refine hne (List.sum_eq_zero_iff_forall_eq_nat.mpr fun o ho => ?_)
    exact not_not.mp fun hpos => hall ⟨o, ho, hpos⟩
  exact hops o ho hpos

theorem flagsLift_fine (repr : FlagsRepr) : FineRendered loads pins armed (flagsLift repr ops) := by
  intro stmts results h
  unfold flagsLift at h
  split at h <;> cases h
  all_goals
    next hlast =>
      exact ⟨.nil, List.forall_mem_singleton.mpr (hops _ (List.mem_of_getLast? hlast))⟩

variable {blocks : List Block} (hblocks : ∀ b ∈ blocks, FineBlock loads pins armed b)
include hblocks

theorem lowerLoop_fine (h : pins) : FineRendered loads pins armed (lowerLoop ops blocks) := by
  intro stmts results hr
  unfold lowerLoop at hr
  split at hr <;> cases hr
  next value body bodyResults =>
    have hvalue := hops value (by simp)
    have hbody := (hblocks (body, bodyResults) (by simp)).text
    have hallocate : Fine loads pins armed [.act Act.allocate] := .act h
    exact ⟨(Fine.evaluate hvalue).append (hallocate.append hbody.loop), fineOperand_replicate 2⟩

theorem liftLoop_fine (n : Nat) : FineRendered loads pins armed (liftLoop n ops blocks) := by
  intro stmts results hr
  unfold liftLoop at hr
  split at hr
  · next value length body bodyResults =>
      split at hr <;> cases hr
      have hvalue := hops value (by simp)
      have hlength := hops length (by simp)
      have hblock := hblocks (body, bodyResults) (by simp)
      refine ⟨(Fine.evaluate hlength).append (fine_countedLoop hlength ?_),
        fineOperand_replicate 1⟩
      exact ((Fine.evaluate hvalue).append hblock.text).append
        (.evaluateAll fun o ho => hblock.results o (List.mem_of_mem_take ho))
  · cases hr

theorem lowerCases_fine (payloads : List Bool) (n : Nat)
    (hne : armed → payloads.zip blocks ≠ []) :
    FineRendered loads pins armed (lowerCases payloads n ops blocks) := by
  intro stmts results hr
  unfold lowerCases at hr
  split at hr <;> cases hr
  next value =>
    have hvalue := hops value (by simp)
    refine ⟨(Fine.evaluate hvalue).append (.branch ?_ fun arm harm => ?_),
      fineOperand_replicate n⟩
    · exact fun ha => by simpa using hne ha
    · obtain ⟨⟨p, b⟩, hb, rfl⟩ := List.mem_map.mp harm
      exact fine_lowerCase hvalue n p (hblocks b (List.of_mem_zip hb).2)

theorem liftCases_fine (payloads : List Bool) (hne : armed → payloads.zip blocks ≠ []) :
    FineRendered loads pins armed (liftCases payloads ops blocks) := by
  intro stmts results hr
  unfold liftCases at hr
  split at hr
  · next tag =>
      have htag := hops tag (by simp)
      generalize hcases : List.mapM (m := Except _) _ (payloads.zip blocks) = q at hr
      cases q with
      | error e => cases hr
      | ok cases' =>
        cases hr
        have hmap := mapM_ok_forall₂ hcases
        refine ⟨(Fine.evaluate htag).append (.branch (fun ha hnil => ?_) fun arm harm => ?_),
          fineOperand_replicate 1⟩
        · rw [hnil] at hmap
          cases hzip : payloads.zip blocks with
          | nil => exact hne ha hzip
          | cons x xs => rw [hzip] at hmap; cases hmap
        · obtain ⟨⟨p, b⟩, hb, hcase⟩ := exists_of_forall₂_right hmap harm
          exact fine_liftCase (hblocks b (List.of_mem_zip hb).2) hcase
  · cases hr

end

end

/-- The instructions of `call` that neither lower nor lift and do nothing else either. -/
def plumbing : Instruction → Bool
  | .getArg _ | .guestDeallocate _ _ | .flush _ => true
  | _ => false

/-- What the arms of `emit` for these instructions add is fine. -/
theorem render_fine {W : WitParser} {c : Config} {i : Instruction} {ops : List Operand}
    {blocks : List Block} {loads pins armed : Prop}
    (hi : i.lowering ∨ i.lifting ∨ plumbing i) (hpins : i.allocates → pins) (hloads : i.reads → loads)
    (harmed : armed → i.armed ∧ (i.lifting ∨ plumbing i)) (hlen : blocks.length = i.blockResults.length)
    (hops : ∀ o ∈ ops, FineOperand loads o)
    (hblocks : ∀ b ∈ blocks, FineBlock loads pins armed b) :
    FineRendered loads pins armed (render W c i ops blocks) := by
  cases i
  case i32Const | variantPayloadName | iterElem | iterBasePointer | iterMapKey | iterMapValue =>
    exact .ok .nil (fineOperand_replicate 1)
  case constZero => exact .ok .nil (fineOperand_replicate _)
  case bitcasts casts =>
    refine .ok .nil fun o ho => ?_
    obtain ⟨⟨b, o⟩, hx, rfl⟩ := List.mem_map.mp ho
    exact hops o (List.of_mem_zip hx).2
  case getArg nth =>
    change FineRendered _ _ _ (if nth < c.paramNames then .ok ([], [0]) else .error .overflow)
    split
    · exact .ok .nil (fineOperand_replicate 1)
    · exact .error
  case guestDeallocate => exact .ok .nil nofun
  case flush amt =>
    exact .ok (.evaluateAll fun o ho => hops o (List.mem_of_mem_take ho)) (fineOperand_replicate _)
  case stringLower | listCanonLower => exact pinInPlace_fine hops (hpins rfl)
  case stringLift | listCanonLift => exact viewInPlace_fine hops
  case listLower | mapLower => exact lowerLoop_fine hops hblocks (hpins rfl)
  case listLift | mapLift => exact liftLoop_fine hops hblocks _
  case i32FromBool =>
    refine .ok ((Fine.evaluateAll hops).append (.branch (fun _ => nofun) fun arm harm => ?_))
      (fineOperand_replicate 1)
    simp only [List.mem_cons, List.not_mem_nil, or_false, or_self] at harm
    rw [harm]
    exact .nil
  case tupleLower | recordLower => exact lowerFields_fine hops _
  case tupleLift => exact .ok .nil (List.forall_mem_singleton.mpr (sum_fine hops))
  case recordLift =>
    exact .ok .nil (List.forall_mem_singleton.mpr
      (sum_fine fun o ho => hops o (List.mem_of_mem_take ho)))
  case flagsLift => exact flagsLift_fine hops _
  case optionLower | resultLower | variantLower =>
    exact lowerCases_fine hops hblocks _ _ fun ha => by
      rcases (harmed ha).2 with h | h <;> cases h
  case optionLift | resultLift =>
    refine liftCases_fine hops hblocks _ fun _ hnil => ?_
    have hzip := congrArg List.length hnil
    rw [List.length_zip, hlen] at hzip
    cases hzip
  case variantLift cases' name id =>
    refine liftCases_fine hops hblocks _ fun ha hnil => ?_
    have hzip := congrArg List.length hnil
    rw [List.length_zip, hlen] at hzip
    simp only [Instruction.blockResults, List.length_map, Nat.min_self, List.length_nil,
      List.length_eq_zero_iff] at hzip
    have hsome := (harmed ha).1
    rw [hzip] at hsome
    cases hsome
  all_goals first
    | exact unary_fine hops
    | exact store_fine hops
    | exact load_fine (hloads rfl) ops
    | exact .error
    | (rcases hi with hi | hi | hi <;> cases hi)

/-! ## The generator's state -/

open Generator

/-- What the generator has added since the state `s₀`, with blocks pending as `l` counts them:
text at the outermost level and at each level inside, and finished blocks, all of them fine;
whether pinning is allowed may depend on a pinner having been asked for. -/
structure Extends (loads : Prop) (pins : Bool → Prop) (armed : Prop) (s₀ : State) (l : List Nat)
    (s : State) : Prop where
  text : ∃ t ts, ts.length + 1 = l.length ∧
    s.blockStorage ++ [s.src] = s₀.blockStorage ++ (s₀.src ++ t) :: ts ∧
    ∀ u ∈ t :: ts, Fine loads (pins s.needPinner) armed u
  blocks : ∃ bs, s.blocks = s₀.blocks ++ bs ∧ bs.length = l.sum ∧
    ∀ b ∈ bs, FineBlock loads (pins s.needPinner) armed b
  needPinner : s₀.needPinner → s.needPinner

section
variable {W : WitParser} {c : Config} {loads armed : Prop} {pins : Bool → Prop} {s₀ s : State}

theorem Extends.refl : Extends loads pins armed s [0] s :=
  ⟨⟨[], [], rfl, by rw [List.append_nil], List.forall_mem_singleton.mpr .nil⟩,
    ⟨[], (List.append_nil _).symm, rfl, nofun⟩, id⟩

/-- At the level where it started, text was added and nothing else changed. -/
theorem Extends.added (h : Extends loads pins armed s₀ [0] s) : ∃ t,
    Fine loads (pins s.needPinner) armed t ∧ s.src = s₀.src ++ t ∧
      s.blockStorage = s₀.blockStorage ∧ s.blocks = s₀.blocks := by
  obtain ⟨t, ts, hlen, htext, hfine⟩ := h.text
  obtain ⟨bs, hblocks, hsum, -⟩ := h.blocks
  obtain rfl : ts = [] := List.eq_nil_of_length_eq_zero (Nat.succ.inj hlen)
  obtain rfl : bs = [] := List.eq_nil_of_length_eq_zero hsum
  obtain ⟨hstorage, hsrc⟩ := List.append_inj' htext rfl
  exact ⟨t, hfine t List.mem_cons_self, List.cons.inj hsrc |>.1, hstorage,
    by rw [hblocks, List.append_nil]⟩

/-- The instructions that lower or lift, as far as what they may do is allowed. -/
def Admitted (loads : Prop) (pins : Bool → Prop) (armed : Prop) (i : Instruction) : Prop :=
  (i.lowering ∨ i.lifting ∨ plumbing i) ∧ (i.allocates → pins true) ∧ (i.reads → loads) ∧
    (armed → i.armed ∧ (i.lifting ∨ plumbing i))

theorem blocksTaken_admitted {i : Instruction} (h : i.lowering ∨ i.lifting ∨ plumbing i) :
    blocksTaken i = i.blockResults.length := by
  cases i <;> first | rfl | (rcases h with h | h | h <;> cases h)

theorem functionGenerator_stable (loads armed : Prop) {pins : Bool → Prop} (s₀ : State)
    (hpins : pins false → pins true) :
    Stable (functionGenerator W c) (Admitted loads pins armed) (Extends loads pins armed s₀)
      (FineOperand loads) where
  emit {i ops s rs s' n l} hi hops hemit hs := by
    obtain ⟨hclass, hallocates, hreads, harmed⟩ := hi
    change (if _ then _ else _) = _ at hemit
    split at hemit
    swap
    · cases hemit
    next hle =>
      cases hr : render W c i ops (s.blocks.drop (s.blocks.length - blocksTaken i)) with
      | error e => rw [hr] at hemit; cases hemit
      | ok r =>
        obtain ⟨stmts, results⟩ := r
        rw [hr] at hemit
        cases hemit
        obtain ⟨t, ts, hlen, htext, hfine⟩ := hs.text
        obtain ⟨bs, hblocks, hsum, hbs⟩ := hs.blocks
        have hmono : pins s.needPinner → pins (s.needPinner || i.allocates) := by
          cases s.needPinner <;> cases i.allocates <;> first | exact id | exact hpins
        have htaken := blocksTaken_admitted hclass
        have hcount : i.blockResults.length ≤ bs.length := by
          rw [hsum, List.sum_cons]
          omega
        have hdrop : s.blocks.drop (s.blocks.length - blocksTaken i) =
            bs.drop (bs.length - i.blockResults.length) := by
          rw [htaken, hblocks, List.length_append, List.drop_append,
            List.drop_eq_nil_of_le (by omega), List.nil_append]
          congr 1
          omega
        have htake : s.blocks.take (s.blocks.length - blocksTaken i) =
            s₀.blocks ++ bs.take (bs.length - i.blockResults.length) := by
          rw [htaken, hblocks, List.length_append, List.take_append,
            List.take_of_length_le (by omega)]
          congr 2
          omega
        rw [hdrop] at hr
        have hrendered : FineRendered loads (pins (s.needPinner || i.allocates)) armed
            (render W c i ops (bs.drop (bs.length - i.blockResults.length))) :=
          render_fine hclass (fun ha => by rw [ha, Bool.or_true]; exact hallocates ha) hreads
            harmed (by rw [List.length_drop, Nat.sub_sub_self hcount]) hops
            fun b hb => (hbs b (List.mem_of_mem_drop hb)).mono hmono
        have hnew := hrendered stmts rs hr
        refine ⟨⟨?_, ⟨_, htake, ?_, fun b hb => ?_⟩, fun h => ?_⟩, hnew.2⟩
        · obtain ⟨t', ts', hlen', htext', hmem⟩ := extend_last (u := stmts) htext
          refine ⟨t', ts', by rw [hlen', hlen]; rfl, htext', fun v hv => ?_⟩
          rcases hmem v hv with hv | ⟨w, hw, rfl⟩
          · exact (hfine v hv).mono hmono
          · exact ((hfine w hw).mono hmono).append hnew.1
        · rw [List.length_take, hsum, List.sum_cons, List.sum_cons]
          omega
        · exact (hbs b (List.mem_of_mem_take hb)).mono hmono
        · rw [hs.needPinner h, Bool.true_or]
  returnPointer {size align s x s' l} hret hs := by
    change (if _ then _ else _) = _ at hret
    split at hret <;> cases hret
    · have hmono : ∀ b, pins s.needPinner → pins (s.needPinner || b) := by
        intro b
        cases s.needPinner <;> cases b <;> first | exact id | exact hpins
      obtain ⟨t, ts, hlen, htext, hfine⟩ := hs.text
      obtain ⟨bs, hblocks, hsum, hbs⟩ := hs.blocks
      exact ⟨⟨⟨t, ts, hlen, htext, fun u hu => (hfine u hu).mono (hmono _)⟩,
        ⟨bs, hblocks, hsum, fun b hb => (hbs b hb).mono (hmono _)⟩,
        fun h => by rw [hs.needPinner h, Bool.true_or]⟩, fineOperand_zero⟩
    · exact ⟨hs, fineOperand_zero⟩
  pushBlock {s s' n l} hpush hs := by
    cases hpush
    obtain ⟨t, ts, hlen, htext, hfine⟩ := hs.text
    obtain ⟨bs, hblocks, hsum, hbs⟩ := hs.blocks
    refine ⟨⟨t, ts ++ [[]], by simp [← hlen], ?_, fun u hu => ?_⟩,
      ⟨bs, hblocks, by rw [hsum]; simp, hbs⟩, hs.needPinner⟩
    · rw [htext, List.append_assoc, List.cons_append]
    · rcases List.mem_append.mp (List.cons_append ▸ hu : u ∈ (t :: ts) ++ [[]]) with hu | hu
      · exact hfine u hu
      · rw [List.mem_singleton.mp hu]
        exact .nil
  finishBlock {ops s s' n l} hops hfinish hs := by
    obtain ⟨t, ts, hlen, htext, hfine⟩ := hs.text
    obtain ⟨bs, hblocks, hsum, hbs⟩ := hs.blocks
    rcases List.eq_nil_or_concat ts with rfl | ⟨ts', v, rfl⟩
    · cases hlen
    · rw [List.concat_eq_append, ← List.cons_append, ← List.append_assoc] at htext
      obtain ⟨hstorage, hsrc⟩ := List.append_inj' htext rfl
      obtain ⟨rfl, -⟩ := List.cons.inj hsrc
      dsimp only [functionGenerator] at hfinish
      cases hlast : s.blockStorage.getLast? with
      | none => rw [hlast] at hfinish; cases hfinish
      | some r =>
        rw [hlast] at hfinish
        cases hfinish
        refine ⟨⟨t, ts', by simpa using hlen, ?_, fun u hu => hfine u (by
          rw [List.concat_eq_append, ← List.cons_append]
          exact List.mem_append_left _ hu)⟩, ⟨bs ++ [(s.src, ops)], ?_, ?_, ?_⟩, hs.needPinner⟩
        · rw [← hstorage]
          exact List.dropLast_append_getLast? _ hlast
        · show s.blocks ++ _ = _
          rw [hblocks, List.append_assoc]
        · rw [List.length_append, hsum]
          simp only [List.sum_cons, List.length_singleton]
          omega
        · refine List.forall_mem_append.mpr ⟨hbs, List.forall_mem_singleton.mpr ⟨?_, hops⟩⟩
          exact hfine _ (by rw [List.concat_eq_append]; simp)

/-- What an emitter does to the state, from where it starts. -/
structure Added (loads : Prop) (pins : Bool → Prop) (armed : Prop) (s s' : State) (t : Text Act) :
    Prop where
  fine : Fine loads (pins s'.needPinner) armed t
  src : s'.src = s.src ++ t
  blockStorage : s'.blockStorage = s.blockStorage
  blocks : s'.blocks = s.blocks
  needPinner : s.needPinner → s'.needPinner

theorem added_of_steady {α : Type} {g : Gen (functionGenerator W c) α}
    {s s' : GenState (functionGenerator W c)} {x : α} (h : g s = .ok (x, s'))
    (hg : Steady (Extends loads pins armed s.bindgen) (FineOperand loads) g)
    (hstack : ∀ o ∈ s.stack, FineOperand loads o) :
    (∃ t, Added loads pins armed s.bindgen s'.bindgen t) ∧ ∀ o ∈ s'.stack, FineOperand loads o := by
  obtain ⟨hext, hstack', -⟩ := hg s x s' 0 [] h Extends.refl hstack
  obtain ⟨t, hfine, hsrc, hstorage, hblocks⟩ := Extends.added hext
  exact ⟨⟨t, hfine, hsrc, hstorage, hblocks, hext.needPinner⟩, hstack'⟩

/-- Lowering pins only where there is a list, and loads only what its operand loads. -/
theorem lower_extends (pins : Bool → Prop) (hpins : pins false → pins true) {ty : Ty} (h : ty.HasList → pins true) :
    Steady (Extends loads pins False s₀) (FineOperand loads)
        (lower W ty : Gen (functionGenerator W c) Unit) ∧
      ∀ addr offset, FineOperand loads addr → Steady (Extends loads pins False s₀)
        (FineOperand loads) (writeToMemory W ty addr offset : Gen (functionGenerator W c) Unit) := by
  refine Keeps.lower_and_write (functionGenerator_stable loads False s₀ hpins) ty fun i hi ha =>
    ⟨.inl hi, fun hi' => h (ha hi'), fun hr => ?_, False.elim⟩
  rw [Instruction.reads_of_lowering hi] at hr
  cases hr

/-- Lifting loads, and does nothing else. -/
theorem lift_extends {ty : Ty} (h : armed → ty.Valid) :
    Steady (Extends True (fun _ => False) armed s₀) (FineOperand True)
        (lift W ty : Gen (functionGenerator W c) Unit) ∧
      ∀ addr offset, FineOperand True addr → Steady (Extends True (fun _ => False) armed s₀)
        (FineOperand True) (readFromMemory W ty addr offset :
          Gen (functionGenerator W c) Unit) := by
  refine Keeps.lift_and_read (functionGenerator_stable True armed s₀ id) ty fun i hi ha =>
    ⟨.inr (.inl hi), fun hi' => ?_, fun _ => trivial, fun hv => ⟨ha (h hv), .inl hi⟩⟩
  rw [Instruction.allocates_of_lifting hi] at hi'
  cases hi'

end

end WitBindgen.Go
