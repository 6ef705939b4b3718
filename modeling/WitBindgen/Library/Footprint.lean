import WitBindgen.Library.Heap
import Mathlib.Data.Finset.Lattice.Lemmas
import Mathlib.Data.List.Perm.Basic
import Mathlib.Data.List.Nodup

/-!
# What a construction leaves behind

A construction builds a value in memory: it fills a span that its caller owns
and allocates blocks of its own. `Realizes` says what holds of every run of
such a construction: it runs out of memory, or it finishes with a heap that
differs from the old one only in the span and in fresh blocks, which are the
ones the request list asks for, and an observation holds in every later world
that still agrees on the span and on those blocks.

Observations are closed under everything that happens elsewhere, so two
constructions compose without a frame argument at each use: the rules below
(`bind`, `bytes`, `buffer`, `list`) carry it.
-/

namespace Heap

variable {ε α β γ : Type} {limit : Nat}

/-- A block a construction asks for. `released` marks the ones its destructor
gives back. -/
structure Request where
  size : Nat
  align : Nat
  released : Bool
deriving DecidableEq

/-- The blocks an allocator answers a list of requests with, one after the
other, starting from the live blocks `live`. -/
def Allocator.place (A : Allocator limit) : Finset Block → List Request → Option (List Block)
  | _, [] => some []
  | live, r :: rs =>
    match A.alloc live r.size r.align with
    | none => none
    | some a =>
      (A.place (insert ⟨a, r.size, r.align⟩ live) rs).map (⟨a, r.size, r.align⟩ :: ·)

theorem Allocator.place_append (A : Allocator limit) {live : Finset Block}
    {rs rs' : List Request} {bs bs' : List Block}
    (h : A.place live rs = some bs) (h' : A.place (live ∪ bs.toFinset) rs' = some bs') :
    A.place live (rs ++ rs') = some (bs ++ bs') := by
  induction rs generalizing live bs with
  | nil =>
    cases h
    rw [List.toFinset_nil, Finset.union_empty] at h'
    simpa using h'
  | cons r rs ih =>
    rw [Allocator.place] at h
    rw [List.cons_append, Allocator.place]
    cases ha : A.alloc live r.size r.align with
    | none => rw [ha] at h; cases h
    | some a =>
      rw [ha] at h
      obtain ⟨bs₁, hp, rfl⟩ := Option.map_eq_some_iff.mp h
      have hl : insert ⟨a, r.size, r.align⟩ live ∪ bs₁.toFinset =
          live ∪ (⟨a, r.size, r.align⟩ :: bs₁ : List Block).toFinset := by
        ext b; simp
      rw [← hl] at h'
      simp only [ih hp h', Option.map_some, List.cons_append]

theorem Allocator.place_length (A : Allocator limit) {live : Finset Block}
    {rs : List Request} {bs : List Block} (h : A.place live rs = some bs) :
    bs.length = rs.length := by
  induction rs generalizing live bs with
  | nil => cases h; rfl
  | cons r rs ih =>
    rw [Allocator.place] at h
    cases ha : A.alloc live r.size r.align with
    | none => rw [ha] at h; cases h
    | some a =>
      rw [ha] at h
      obtain ⟨bs₁, hp, rfl⟩ := Option.map_eq_some_iff.mp h
      simp [ih hp]

/-- The blocks among `bs` whose request is marked as released. -/
def releasedOf (rs : List Request) (bs : List Block) : List Block :=
  ((rs.zip bs).filter (·.1.released)).map (·.2)

theorem releasedOf_append {rs rs' : List Request} {bs bs' : List Block}
    (h : bs.length = rs.length) :
    releasedOf (rs ++ rs') (bs ++ bs') = releasedOf rs bs ++ releasedOf rs' bs' := by
  simp [releasedOf, List.zip_append h.symm]

theorem releasedOf_subset (rs : List Request) (bs : List Block) :
    releasedOf rs bs ⊆ bs := by
  intro b hb
  simp only [releasedOf, List.mem_map, List.mem_filter, Prod.exists] at hb
  obtain ⟨r, b', ⟨hz, -⟩, rfl⟩ := hb
  exact (List.of_mem_zip hz).2

/-- Nothing is kept back: every requested block is released. -/
theorem releasedOf_all {rs : List Request} {bs : List Block}
    (h : bs.length = rs.length) (hr : ∀ r ∈ rs, r.released = true) :
    releasedOf rs bs = bs := by
  induction rs generalizing bs with
  | nil =>
    have : bs = [] := List.length_eq_zero_iff.mp h
    simp [this, releasedOf]
  | cons r rs ih =>
    cases bs with
    | nil => simp at h
    | cons b bs =>
      have hlen : bs.length = rs.length := by simpa using h
      have hrest := ih hlen fun r' hr' => hr r' (List.mem_cons_of_mem _ hr')
      have hhead := hr r List.mem_cons_self
      simp only [releasedOf] at hrest
      simp [releasedOf, hhead, hrest]

/-- A request whose block is kept. -/
def Request.keep (r : Request) : Request := { r with released := false }

theorem Allocator.place_keep (A : Allocator limit) (live : Finset Block) (rs : List Request) :
    A.place live (rs.map Request.keep) = A.place live rs := by
  induction rs generalizing live with
  | nil => rfl
  | cons r rs ih => simp only [List.map_cons, Allocator.place, Request.keep, ih]

theorem releasedOf_none {rs : List Request} {bs : List Block}
    (h : ∀ r ∈ rs, r.released = false) : releasedOf rs bs = [] := by
  rw [releasedOf, List.map_eq_nil_iff, List.filter_eq_nil_iff]
  rintro ⟨r, b⟩ hz
  simp [h r (List.of_mem_zip hz).1]

/-! ## Growth and agreement -/

/-- `w'` is `w` with the span `(a, k)` rewritten and the blocks `news` added. -/
structure World.Grows (w w' : World ε) (a k : Nat) (news : List Block) : Prop where
  live : w'.live = w.live ∪ news.toFinset
  nodup : news.Nodup
  notLive : ∀ b ∈ news, b ∉ w.live
  fresh : ∀ b ∈ news, ∀ c ∈ w.live, ∀ x, c.Contains x → ¬ b.Contains x
  mem : ∀ x, (∃ c ∈ w.live, c.Contains x) → ¬ InSpan a k x → w'.mem x = w.mem x
  freed : w'.freed = w.freed
  log : w'.log = w.log

/-- `w'` still has what `w` has at the span `(a, k)` and in the blocks `news`,
and the span does not rest on those blocks. -/
structure World.Agrees (w w' : World ε) (a k : Nat) (news : List Block) : Prop where
  span : Accessible (w'.live \ news.toFinset) a k
  live : ∀ b ∈ news, b ∈ w'.live
  mem : ∀ x, InSpan a k x ∨ (∃ b ∈ news, b.Contains x) → w'.mem x = w.mem x

/-- `w` after the blocks `bs` were released and the events `es` were noted. -/
def World.after (w : World ε) (bs : List Block) (es : List ε) : World ε :=
  { w with live := w.live \ bs.toFinset, freed := w.freed ++ bs, log := w.log ++ es }

@[simp] theorem World.after_nil (w : World ε) : w.after [] [] = w := by
  simp [World.after]

theorem World.after_after (w : World ε) (bs bs' : List Block) (es es' : List ε) :
    (w.after bs es).after bs' es' = w.after (bs ++ bs') (es ++ es') := by
  have hlive : (w.live \ bs.toFinset) \ bs'.toFinset = w.live \ (bs ++ bs').toFinset := by
    ext b; simp; tauto
  simp [World.after, hlive]

theorem release_after {w : World ε} {b : Block} (h : b ∈ w.live) :
    release b w = .ok ((), w.after [b] []) := by
  rw [release_ok h]
  have hlive : w.live.erase b = w.live \ [b].toFinset := by
    ext c; simp [and_comm]
  simp [World.after, hlive]

theorem note_after (w : World ε) (e : ε) : note e w = .ok ((), w.after [] [e]) := by
  simp [note, World.after]

theorem World.Grows.refl (w : World ε) (a k : Nat) : w.Grows w a k [] where
  live := by simp
  nodup := List.nodup_nil
  notLive := by simp
  fresh := by simp
  mem := fun _ _ _ => rfl
  freed := rfl
  log := rfl

/-- Growing changes nothing the new blocks could confuse with the old ones. -/
theorem World.Grows.subset {w w' : World ε} {a k : Nat} {news : List Block}
    (h : w.Grows w' a k news) : w.live ⊆ w'.live := by
  rw [h.live]; exact Finset.subset_union_left

theorem World.Grows.news_live {w w' : World ε} {a k : Nat} {news : List Block}
    (h : w.Grows w' a k news) {b : Block} (hb : b ∈ news) : b ∈ w'.live := by
  rw [h.live]; simp [hb]

/-- What was live stays live beside the new blocks. -/
theorem World.Grows.old_sdiff {w w' : World ε} {a k : Nat} {news : List Block}
    (h : w.Grows w' a k news) : w.live ⊆ w'.live \ news.toFinset := by
  intro b hb
  simp only [Finset.mem_sdiff, List.mem_toFinset]
  exact ⟨h.subset hb, fun hn => h.notLive b hn hb⟩

theorem World.Grows.trans {w w₁ w₂ : World ε} {a k a₁ k₁ a₂ k₂ : Nat}
    {n₁ n₂ : List Block} (h₁ : w.Grows w₁ a₁ k₁ n₁) (h₂ : w₁.Grows w₂ a₂ k₂ n₂)
    (in₁ : Inside a₁ k₁ a k)
    (in₂ : ∀ x, InSpan a₂ k₂ x → InSpan a k x ∨ ∃ b ∈ n₁, b.Contains x) :
    w.Grows w₂ a k (n₁ ++ n₂) where
  live := by rw [h₂.live, h₁.live]; ext b; simp
  nodup := List.nodup_append.mpr ⟨h₁.nodup, h₂.nodup, fun b hb c hc e =>
    h₂.notLive c hc (e ▸ h₁.news_live hb)⟩
  notLive := by
    intro b hb
    rcases List.mem_append.mp hb with hb | hb
    · exact h₁.notLive b hb
    · exact fun hl => h₂.notLive b hb (h₁.subset hl)
  fresh := by
    intro b hb c hc x hx
    rcases List.mem_append.mp hb with hb | hb
    · exact h₁.fresh b hb c hc x hx
    · exact h₂.fresh b hb c (h₁.subset hc) x hx
  mem := by
    rintro x ⟨c, hc, hx⟩ hspan
    have hout₁ : ¬ InSpan a₁ k₁ x := fun hs => hspan (in₁.mem hs)
    have hout₂ : ¬ InSpan a₂ k₂ x := by
      intro hs
      rcases in₂ x hs with hs | ⟨b, hb, hbx⟩
      · exact hspan hs
      · exact h₁.fresh b hb c hc x hx hbx
    rw [h₂.mem x ⟨c, h₁.subset hc, hx⟩ hout₂, h₁.mem x ⟨c, hc, hx⟩ hout₁]
  freed := h₂.freed.trans h₁.freed
  log := h₂.log.trans h₁.log

/-- A grown world agrees with itself. -/
theorem World.Grows.agrees_self {w w' : World ε} {a k : Nat} {news : List Block}
    (h : w.Grows w' a k news) (ha : Accessible w.live a k) : w'.Agrees w' a k news where
  span := ha.mono h.old_sdiff (Inside.refl a k)
  live := fun _ hb => h.news_live hb
  mem := fun _ _ => rfl

/-! ## Constructions -/

/-- Every run of `make` from a world where the span `(a, k)` is accessible runs
out of memory, or allocates exactly `reqs`, touches nothing else but the span,
and leaves a value and blocks of which `Obs` holds as long as the span and the
blocks keep their contents. -/
def Realizes (A : Allocator limit) (a k : Nat) (reqs : List Request) (make : Exec ε β)
    (Obs : β → List Block → World ε → Prop) : Prop :=
  ∀ w, Accessible w.live a k →
    make w = .error .oom ∨
    ∃ b w' news, make w = .ok (b, w') ∧ A.place w.live reqs = some news ∧
      w.Grows w' a k news ∧
      ∀ w'', w'.Agrees w'' a k news → Obs b news w''

variable {A : Allocator limit} {a k : Nat} {reqs : List Request}

theorem Realizes.pure (x : β) :
    Realizes (ε := ε) A a k [] (Pure.pure x) fun b news _ => b = x ∧ news = [] := by
  intro w _
  exact Or.inr ⟨x, w, [], rfl, rfl, World.Grows.refl w a k, fun _ _ => ⟨rfl, rfl⟩⟩

theorem Realizes.mono {make : Exec ε β} {Obs Obs' : β → List Block → World ε → Prop}
    (h : Realizes A a k reqs make Obs)
    (himp : ∀ b news w, news.length = reqs.length → Obs b news w → Obs' b news w) :
    Realizes A a k reqs make Obs' := by
  intro w hw
  rcases h w hw with hoom | ⟨b, w', news, hrun, hplace, hgrow, hobs⟩
  · exact Or.inl hoom
  · exact Or.inr ⟨b, w', news, hrun, hplace, hgrow, fun w'' hag =>
      himp b news w'' (A.place_length hplace) (hobs w'' hag)⟩

/-- A larger span that still lies in accessible memory. -/
theorem Realizes.widen {make : Exec ε β} {Obs : β → List Block → World ε → Prop}
    {a' k' : Nat} (h : Realizes A a' k' reqs make Obs) (hin : Inside a' k' a k) :
    Realizes A a k reqs make Obs := by
  intro w hw
  rcases h w (hw.mono (Finset.Subset.refl _) hin) with
    hoom | ⟨b, w', news, hrun, hplace, hgrow, hobs⟩
  · exact Or.inl hoom
  · refine Or.inr ⟨b, w', news, hrun, hplace, ?_, ?_⟩
    · exact { hgrow with mem := fun x hx hs => hgrow.mem x hx fun hs' => hs (hin.mem hs') }
    · intro w'' hag
      apply hobs
      exact {
        span := hag.span.mono (Finset.Subset.refl _) hin
        live := hag.live
        mem := fun x hx => hag.mem x (hx.imp hin.mem id) }

/-- One construction after another, on spans apart from each other. The second
observation also survives the release of any of the first one's blocks. -/
theorem Realizes.bind {m₁ : Exec ε β} {m₂ : β → Exec ε γ}
    {Obs₁ : β → List Block → World ε → Prop} {Obs₂ : β → γ → List Block → World ε → Prop}
    {a₁ k₁ a₂ k₂ : Nat} {r₁ r₂ : List Request}
    (h₁ : Realizes A a₁ k₁ r₁ m₁ Obs₁)
    (h₂ : ∀ b, (∃ news w, Obs₁ b news w) → Realizes A a₂ k₂ r₂ (m₂ b) (Obs₂ b))
    (in₁ : Inside a₁ k₁ a k) (in₂ : Inside a₂ k₂ a k) (hapart : Apart a₁ k₁ a₂ k₂) :
    Realizes A a k (r₁ ++ r₂) (m₁ >>= m₂) fun c news w =>
      ∃ b n₁ n₂, news = n₁ ++ n₂ ∧ n₁.length = r₁.length ∧ n₂.length = r₂.length ∧
        Obs₁ b n₁ w ∧
        ∀ bs es, bs ⊆ n₁ → Obs₂ b c n₂ (w.after bs es) := by
  intro w hw
  have hw₁ : Accessible w.live a₁ k₁ := hw.mono (Finset.Subset.refl _) in₁
  rcases h₁ w hw₁ with hoom | ⟨b, w₁, n₁, hrun₁, hplace₁, hgrow₁, hobs₁⟩
  · exact Or.inl (run_bind_error hoom)
  have hw₂ : Accessible w.live a₂ k₂ := hw.mono (Finset.Subset.refl _) in₂
  have hself := hobs₁ w₁ (hgrow₁.agrees_self hw₁)
  rcases h₂ b ⟨n₁, w₁, hself⟩ w₁ (hw₂.mono hgrow₁.subset (Inside.refl _ _)) with
    hoom | ⟨c, w₂, n₂, hrun₂, hplace₂, hgrow₂, hobs₂⟩
  · exact Or.inl (by rw [run_bind_ok hrun₁, hoom])
  rw [hgrow₁.live] at hplace₂
  refine Or.inr ⟨c, w₂, n₁ ++ n₂, by rw [run_bind_ok hrun₁, hrun₂],
    A.place_append hplace₁ hplace₂, hgrow₁.trans hgrow₂ in₁ (fun x hx => Or.inl (in₂.mem hx)),
    ?_⟩
  intro w'' hag
  -- the first construction's span and blocks are out of the second one's reach
  have hmem₁ : ∀ x, InSpan a₁ k₁ x ∨ (∃ b ∈ n₁, b.Contains x) → w₂.mem x = w₁.mem x := by
    rintro x (hx | ⟨b', hb', hx⟩)
    · obtain ⟨c', hc', hcx⟩ := hw₁.block hx
      exact hgrow₂.mem x ⟨c', hgrow₁.subset hc', hcx⟩ (hapart.notMem hx)
    · refine hgrow₂.mem x ⟨b', hgrow₁.news_live hb', hx⟩ fun hs => ?_
      obtain ⟨c', hc', hcx⟩ := hw₂.block hs
      exact hgrow₁.fresh b' hb' c' hc' x hcx hx
  refine ⟨b, n₁, n₂, rfl, A.place_length hplace₁, A.place_length hplace₂, ?_, ?_⟩
  · apply hobs₁
    refine ⟨hag.span.mono ?_ in₁, fun b' hb' => hag.live b' (List.mem_append_left _ hb'), ?_⟩
    · intro d hd
      simp only [Finset.mem_sdiff, List.mem_toFinset, List.mem_append, not_or] at hd ⊢
      exact ⟨hd.1, hd.2.1⟩
    · intro x hx
      rw [← hmem₁ x hx]
      apply hag.mem
      rcases hx with hx | ⟨b', hb', hx⟩
      · exact Or.inl (in₁.mem hx)
      · exact Or.inr ⟨b', List.mem_append_left _ hb', hx⟩
  · intro bs es hbs
    apply hobs₂
    refine ⟨hag.span.mono ?_ in₂, ?_, ?_⟩
    · intro d hd
      simp only [World.after, Finset.mem_sdiff, List.mem_toFinset, List.mem_append, not_or]
        at hd ⊢
      exact ⟨⟨hd.1, fun hb' => hd.2.1 (hbs hb')⟩, hd.2.2⟩
    · intro b' hb'
      simp only [World.after, Finset.mem_sdiff, List.mem_toFinset]
      exact ⟨hag.live b' (List.mem_append_right _ hb'), fun hin =>
        hgrow₂.notLive b' hb' (hgrow₁.news_live (hbs hin))⟩
    · rintro x (hx | ⟨b', hb', hx⟩)
      · exact hag.mem x (Or.inl (in₂.mem hx))
      · exact hag.mem x (Or.inr ⟨b', List.mem_append_right _ hb', hx⟩)

/-- Laying bytes down in the span. -/
theorem Realizes.bytes (bs : List UInt8) :
    Realizes (ε := ε) A a bs.length [] (storeBytes a bs) fun _ news w =>
      news = [] ∧ loadBytes a bs.length w = .ok (bs, w) := by
  intro w hw
  refine Or.inr ⟨(), _, [], storeBytes_ok hw, rfl, ?_, ?_⟩
  · exact {
      live := by simp
      nodup := List.nodup_nil
      notLive := by simp
      fresh := by simp
      mem := fun x _ hx => overwrite_of_notMem hx
      freed := rfl
      log := rfl }
  · intro w'' hag
    refine ⟨rfl, loadBytes_ok ?_ ?_⟩
    · exact hag.span.mono Finset.sdiff_subset (Inside.refl _ _)
    · rw [readBytes_congr fun x hx => hag.mem x (Or.inl hx)]
      exact readBytes_overwrite _ _ _

/-- Laying the low bytes of a number down in the span. -/
theorem Realizes.nat (n : Nat) :
    Realizes (ε := ε) A a k [] (storeNat a k n) fun _ news w =>
      news = [] ∧ loadNat a k w = .ok (n % 256 ^ k, w) := by
  have hb := Realizes.bytes (ε := ε) (A := A) (a := a) (toBytes k n)
  rw [length_toBytes] at hb
  refine hb.mono fun _ news w _ hobs => ⟨hobs.1, ?_⟩
  rw [loadNat_ok hobs.2, ofBytes_toBytes]

theorem Realizes.oom {Obs : β → List Block → World ε → Prop} :
    Realizes A a k reqs Heap.oom Obs := fun _ _ => Or.inl rfl

/-- Allocating a buffer and building inside it. The buffer belongs to the
result, next to what the inner construction allocates. -/
theorem Realizes.buffer {m : Nat → Exec ε γ} {Obs : Nat → γ → List Block → World ε → Prop}
    {size align : Nat} (released : Bool)
    (h : ∀ p, p < limit → Realizes A p size reqs (m p) (Obs p)) :
    Realizes A a 0 (⟨size, align, released⟩ :: reqs) (allocate A size align >>= m)
      fun c news w => ∃ p n, p < limit ∧ news = ⟨p, size, align⟩ :: n ∧
        n.length = reqs.length ∧ Obs p c n w ∧ ⟨p, size, align⟩ ∉ n ∧
        ⟨p, size, align⟩ ∈ w.live := by
  intro w _
  cases ha : A.alloc w.live size align with
  | none => exact Or.inl (run_bind_error (by rw [allocate, ha]))
  | some p =>
    have hp := A.addr_lt ha
    obtain ⟨hnot, hdisj⟩ := A.fresh ha
    set B : Block := ⟨p, size, align⟩ with hB
    set w₁ : World ε := { w with
      live := insert B w.live
      mem := fun x => if InSpan p size x then none else w.mem x } with hw₁
    have hrun : allocate A size align w = .ok (p, w₁) := by rw [allocate, ha]
    have hgrow₁ : w.Grows w₁ p 0 [B] := {
      live := by ext b; simp [hw₁]
      nodup := List.nodup_singleton _
      notLive := by simpa using hnot
      fresh := by
        intro b hb c hc x hx
        rw [List.mem_singleton.mp hb]
        exact hdisj c hc x hx
      mem := by
        rintro x ⟨c, hc, hx⟩ _
        simp [hw₁, hdisj c hc x hx]
      freed := rfl
      log := rfl }
    have hacc : Accessible w₁.live p size :=
      Or.inr ⟨B, by simp [hw₁], Nat.le_refl _, Nat.le_refl _⟩
    rcases h p hp w₁ hacc with hoom | ⟨c, w₂, n, hrun₂, hplace, hgrow₂, hobs⟩
    · exact Or.inl (by rw [run_bind_ok hrun, hoom])
    have hBn : B ∉ n := fun hn => hgrow₂.notLive B hn (by simp [hw₁])
    refine Or.inr ⟨c, w₂, B :: n, by rw [run_bind_ok hrun, hrun₂], ?_, ?_, ?_⟩
    · have hplace' : A.place (insert B w.live) reqs = some n := hplace
      simp only [Allocator.place, ha, ← hB, hplace', Option.map_some]
    · simpa using hgrow₁.trans (a := a) (k := 0) hgrow₂ Inside.empty
        fun x hx => Or.inr ⟨B, List.mem_singleton_self _, hx⟩
    · intro w'' hag
      have hBlive : B ∈ w''.live := hag.live B List.mem_cons_self
      refine ⟨p, n, hp, rfl, A.place_length hplace, hobs w'' ?_, hBn, hBlive⟩
      refine ⟨Or.inr ⟨B, ?_, Nat.le_refl _, Nat.le_refl _⟩,
        fun b hb => hag.live b (List.mem_cons_of_mem _ hb), ?_⟩
      · simpa using ⟨hBlive, hBn⟩
      · rintro x (hx | ⟨b, hb, hx⟩)
        · exact hag.mem x (Or.inr ⟨B, List.mem_cons_self, hx⟩)
        · exact hag.mem x (Or.inr ⟨b, List.mem_cons_of_mem _ hb, hx⟩)

/-- Whether the blocks will be released does not change how they are allocated. -/
theorem Realizes.keep {make : Exec ε β} {Obs : β → List Block → World ε → Prop}
    (h : Realizes A a k reqs make Obs) :
    Realizes A a k (reqs.map Request.keep) make Obs := by
  intro w hw
  rcases h w hw with hoom | ⟨b, w', news, hrun, hplace, hrest⟩
  · exact Or.inl hoom
  · exact Or.inr ⟨b, w', news, hrun, by rw [A.place_keep, hplace], hrest⟩

/-! ## Values held in memory -/

/-- The construction's result can be read back with `ld`, as `v`, and destroyed
with `fr`: in each mode this releases exactly the blocks its requests mark as
released, each once, and notes `evs`. -/
structure Held {κ : Type} (ld : Exec ε α) (fr : κ → Exec ε Unit) (v : α)
    (reqs : List Request) (evs : κ → List ε) (news : List Block) (w : World ε) : Prop where
  read : ld w = .ok (v, w)
  free : ∀ mode, ∃ order, fr mode w = .ok ((), w.after order (evs mode)) ∧
    order.Perm (releasedOf reqs news)

variable {κ : Type}

/-- A value that owns nothing. -/
theorem Held.plain {ld : Exec ε α} {fr : κ → Exec ε Unit} {v : α} {w : World ε}
    (h : ld w = .ok (v, w)) (hfr : ∀ mode, fr mode = Pure.pure ()) :
    Held ld fr v [] (fun _ => []) [] w where
  read := h
  free := fun mode => ⟨[], by rw [hfr, World.after_nil]; rfl, by simp [releasedOf]⟩

/-- Reading through a function that succeeds on what is read. -/
theorem Held.map {δ : Type} {ld : Exec ε α} {fr : κ → Exec ε Unit} {v : α}
    {reqs : List Request} {evs : κ → List ε} {news : List Block} {w : World ε}
    (h : Held ld fr v reqs evs news w) {f : α → Exec ε δ} {u : δ} (hf : f v = Pure.pure u) :
    Held (ld >>= f) fr u reqs evs news w where
  read := by rw [run_bind_ok h.read, hf]; rfl
  free := h.free

/-- A value that keeps what it owns. -/
theorem Held.keep {ld : Exec ε α} {fr : κ → Exec ε Unit} {v : α} {reqs : List Request}
    {evs : κ → List ε} {news : List Block} {w : World ε} (h : Held ld fr v reqs evs news w)
    (fr' : κ → Exec ε Unit) (hfr : ∀ mode, fr' mode = Pure.pure ()) :
    Held ld fr' v (reqs.map Request.keep) (fun _ => []) news w where
  read := h.read
  free := by
    intro mode
    refine ⟨[], by rw [hfr, World.after_nil]; rfl, ?_⟩
    rw [releasedOf_none]
    simp [Request.keep]

theorem Held.nil {w : World ε} :
    Held (Pure.pure ([] : List α)) (fun _ : κ => Pure.pure ()) [] [] (fun _ => []) [] w :=
  Held.plain rfl fun _ => rfl

/-- One after the other: the second is read and destroyed after the first. -/
theorem Held.cons {ld : Exec ε α} {lds : Exec ε (List α)} {fr frs : κ → Exec ε Unit}
    {v : α} {vs : List α} {r rs : List Request} {e es : κ → List ε} {n ns : List Block}
    {w : World ε} (h : Held ld fr v r e n w) (hn : n.length = r.length)
    (h' : ∀ bs es', bs ⊆ n → Held lds frs vs rs es ns (w.after bs es')) :
    Held (do let x ← ld; let xs ← lds; Pure.pure (x :: xs))
      (fun mode => do fr mode; frs mode) (v :: vs) (r ++ rs)
      (fun mode => e mode ++ es mode) (n ++ ns) w where
  read := by
    have hs := (h' [] [] (by simp)).read
    rw [World.after_nil] at hs
    rw [run_bind_ok h.read, run_bind_ok hs]
    rfl
  free := by
    intro mode
    obtain ⟨o, hrun, hperm⟩ := h.free mode
    have hsub : o ⊆ n := fun b hb => releasedOf_subset r n (hperm.subset hb)
    obtain ⟨os, hruns, hperms⟩ := (h' o (e mode) hsub).free mode
    refine ⟨o ++ os, ?_, ?_⟩
    · rw [run_bind_ok hrun, hruns, World.after_after]
    · rw [releasedOf_append hn]
      exact hperm.append hperms

theorem Realizes.map {make : Exec ε β} {Obs : β → List Block → World ε → Prop} {f : β → γ}
    (h : Realizes A a k reqs make Obs) {Obs' : γ → List Block → World ε → Prop}
    (himp : ∀ b news w, news.length = reqs.length → Obs b news w → Obs' (f b) news w) :
    Realizes A a k reqs (f <$> make) Obs' := by
  intro w hw
  rcases h w hw with hoom | ⟨b, w', news, hrun, hplace, hgrow, hobs⟩
  · exact Or.inl (by rw [map_eq_pure_bind, run_bind_error hoom])
  · exact Or.inr ⟨f b, w', news, run_map_ok hrun, hplace, hgrow, fun w'' hag =>
      himp b news w'' (A.place_length hplace) (hobs w'' hag)⟩

/-- Constructions over a list of items, each in its own slot and the slots in
ascending order. `P` is what is known of each result. -/
theorem Realizes.each {ι : Type} (items : List ι) (addr size : ι → Nat)
    (req : ι → List Request) (make : ι → Exec ε β) (ld : ι → β → Exec ε α)
    (fr : ι → β → κ → Exec ε Unit) (v : ι → α) (evs : ι → κ → List ε) (P : ι → β → Prop)
    (h : ∀ i ∈ items, Realizes A (addr i) (size i) (req i) (make i) fun b news w =>
      P i b ∧ Held (ld i b) (fr i b) (v i) (req i) (evs i) news w)
    (hin : ∀ i ∈ items, a ≤ addr i ∧ addr i + size i ≤ a + k)
    (hsorted : items.Pairwise fun i j => addr i + size i ≤ addr j) :
    Realizes A a k (items.map req).flatten (items.mapM make) fun bs news w =>
      List.Forall₂ P items bs ∧
      Held ((items.zip bs).mapM fun x => ld x.1 x.2)
        (fun mode => (items.zip bs).forM fun x => fr x.1 x.2 mode)
        (items.map v) (items.map req).flatten
        (fun mode => (items.map fun i => evs i mode).flatten) news w := by
  induction items generalizing a k with
  | nil =>
    refine Realizes.pure [] |>.mono ?_
    rintro b news w - ⟨rfl, rfl⟩
    exact ⟨.nil, Held.nil⟩
  | cons i is ih =>
    obtain ⟨hlo, hhi⟩ := hin i List.mem_cons_self
    obtain ⟨hfirst, hrest⟩ := List.pairwise_cons.mp hsorted
    -- the slots after the first lie beyond its end
    have hrestIn : ∀ j ∈ is, addr i + size i ≤ addr j ∧
        addr j + size j ≤ addr i + size i + (a + k - (addr i + size i)) := by
      intro j hj
      have := (hin j (List.mem_cons_of_mem _ hj)).2
      have := hfirst j hj
      omega
    have htail := ih (a := addr i + size i) (k := a + k - (addr i + size i))
      (fun j hj => h j (List.mem_cons_of_mem _ hj)) hrestIn hrest
    rw [List.mapM_cons, List.map_cons, List.flatten_cons]
    have htails : ∀ b, Realizes A (addr i + size i) (a + k - (addr i + size i))
        (is.map req).flatten ((fun bs => b :: bs) <$> is.mapM make) fun cs news w =>
          ∃ bs, cs = b :: bs ∧ List.Forall₂ P is bs ∧
            Held ((is.zip bs).mapM fun x => ld x.1 x.2)
              (fun mode => (is.zip bs).forM fun x => fr x.1 x.2 mode)
              (is.map v) (is.map req).flatten
              (fun mode => (is.map fun i => evs i mode).flatten) news w :=
      fun b => htail.map fun bs news w _ hobs => ⟨bs, rfl, hobs.1, hobs.2⟩
    simp only [map_eq_pure_bind] at htails
    refine (Realizes.bind (h i List.mem_cons_self) (fun b _ => htails b) (Or.inr ⟨hlo, hhi⟩) (Or.inr ⟨by omega, by omega⟩) (Or.inl (Nat.le_refl _))).mono ?_
    rintro cs news w - ⟨b, n₁, n₂, rfl, hn₁, -, ⟨hp, hheld⟩, hobs⟩
    obtain ⟨bs, rfl, hps, -⟩ := hobs [] [] (by simp)
    refine ⟨.cons hp hps, ?_⟩
    have hlater : ∀ rel es, rel ⊆ n₁ → Held ((is.zip bs).mapM fun x => ld x.1 x.2)
        (fun mode => (is.zip bs).forM fun x => fr x.1 x.2 mode) (is.map v)
        (is.map req).flatten (fun mode => (is.map fun i => evs i mode).flatten) n₂
        (w.after rel es) := by
      intro rel es hrel
      obtain ⟨bs', hbs, -, hheld'⟩ := hobs rel es hrel
      obtain rfl := (List.cons.inj hbs).2
      exact hheld'
    have hcons := hheld.cons hn₁ hlater
    simpa [List.mapM_cons, List.forM_cons] using hcons

end Heap
