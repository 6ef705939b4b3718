import WitBindgen.Machine.Lowering
import WitBindgen.Machine.Lifting
import WitBindgen.Canon.Lowered
import WitBindgen.Wit.Canonical
import Mathlib.Order.Lattice.Nat

/-!
# Round trips through the generated code

What the generator's writing code stores, its reading code loads again; what
its lowering code makes of a value, its lifting code turns back into the value.
Both follow from the canonical ABI in the middle: the emitted code computes
`store`, `load`, `lowerFlat` and `liftFlat`, and a stored or lowered value is
held.
-/

namespace WitBindgen

open Heap Code Generator

/-! ## A machine -/

/-- Allocates above everything that is live. -/
def bump (limit : Nat) : Allocator limit where
  alloc live _ align :=
    let a := alignTo (live.sup fun b => b.addr + b.size + 1) align
    if a < limit then some a else none
  fresh := by
    intro live size align a h
    have hle : ∀ b ∈ live, b.addr + b.size + 1 ≤ a := by
      intro b hb
      dsimp only at h
      split at h
      · obtain rfl := Option.some.inj h
        exact Nat.le_trans (Finset.le_sup (f := fun b : Heap.Block => b.addr + b.size + 1) hb)
          (le_alignTo _ _)
      · cases h
    refine ⟨fun hmem => ?_, fun b hb x hx hspan => ?_⟩
    · have hself : a + size + 1 ≤ a := hle _ hmem
      omega
    · have hend := hle b hb
      unfold Heap.Block.Contains InSpan at hx
      unfold InSpan at hspan
      omega
  addr_lt := by
    intro live size align a h
    dsimp only at h
    split at h
    · next hlt => obtain rfl := Option.some.inj h; exact hlt
    · cases h

/-- A guest whose calls go nowhere. -/
def bumpGuest (W : WitParser) (p : Nat) : Machine where
  W := W
  p := p
  A := bump (256 ^ p)
  returnArea size align := allocate (bump (256 ^ p)) size align
  callWasm _ _ := stuck
  callInterface _ _ := stuck

/-- One of 32 bits. -/
def bumpMachine : Machine := bumpGuest .canonical 4

theorem bumpMachine_lawful : bumpMachine.W.Lawful bumpMachine.p := canonical_lawful

/-! ## Memory -/

section
variable {M : Machine} {canon : Ty → Bool} {ra : Option Realloc}

/-- Code that computes a specification which succeeds. -/
theorem Computes_run_ok {α : Type} {code : List CStmt} {ctx : Ctx} {env : List RVal} {n : Nat}
    {spec : Exec Event α} {Q : List RVal → α → Prop} (h : Computes M.step code ctx env n spec Q)
    {w w' : World Event} {x : α} (hspec : spec w = .ok (x, w')) :
    ∃ env', execCode M.step code ctx env w = .ok (env', w') ∧ env <+: env' ∧ env'.length = n ∧
      Q env' x :=
  Agree.run_ok h hspec

/-- A value of a supported type that the generated code writes to an accessible
place is read back by the generated code, if memory does not run out. -/
theorem read_after_write (hM : M.W.Lawful M.p) {ty : Ty} (hs : ty.Supported) {v : Val}
    (hv : Fits v ty) (r : Realloc) (offset : ArchitectureSize) (x addr n : Nat) :
    ∃ writeCode n₁ readCode y n₂,
      Emits (some r) (writeToMemory M.W ty addr offset : RGen M.W canon Unit) [x] n () [] writeCode
        n₁ ∧
      Emits (some r) (readFromMemory M.W ty addr offset : RGen M.W canon Unit) [] n₁ () [y]
        readCode n₂ ∧
      ∀ ctx env a w, env.length = n → env[x]? = some (.val v) → env[addr]? = some (.ptr a) →
        Accessible w.live (a + offset.eval M.p) (M.size ty) →
        execCode M.step writeCode ctx env w = .error .oom ∨
        ∃ env₁ w₁ env₂, execCode M.step writeCode ctx env w = .ok (env₁, w₁) ∧
          execCode M.step readCode ctx env₁ w₁ = .ok (env₂, w₁) ∧ env₂[y]? = some (.val v) := by
  have hwriteOk : WriteOk M canon (some r) ty := (lower_and_write hM hs).2
  have hreadOk : ReadOk M canon (some r) ty := (lift_and_read hM hs).2
  obtain ⟨writeCode, n₁, hwrite, hwriteComp⟩ := hwriteOk x addr n offset
  obtain ⟨readCode, y, n₂, hread, hreadComp⟩ := hreadOk addr n₁ offset
  refine ⟨writeCode, n₁, readCode, y, n₂, hwrite, hread, ?_⟩
  intro ctx env a w hn hx haddr hacc
  have hcode := hwriteComp ctx env v a hn hx haddr
  rcases stored (T := M.toTarget) hM hs v hv (a + offset.eval M.p) w hacc with
    hoom | ⟨_, w₁, news, hstore, -, hgrow, hheld⟩
  · exact Or.inl (Agree.run_error hcode hoom)
  · obtain ⟨env₁, hrun, hpre, hlen, -⟩ := Computes_run_ok hcode hstore
    have hload := (hheld w₁ (hgrow.agrees_self hacc)).read
    obtain ⟨env₂, hrun₂, -, -, hy⟩ :=
      Computes_run_ok (hreadComp ctx env₁ a hlen (getElem?_mono hpre haddr)) hload
    exact Or.inr ⟨env₁, w₁, env₂, hrun, hrun₂, hy⟩

/-- A list of optional strings at an offset of four bytes. -/
theorem read_after_write_strings :
    ∃ writeCode n₁ readCode y n₂,
      Emits (some .none) (writeToMemory bumpMachine.W
        (.list 1 (.option 0 .string)) 1 ⟨4, 0⟩ : RGen bumpMachine.W (fun _ => false) Unit) [0] 2 ()
        [] writeCode n₁ ∧
      Emits (some .none) (readFromMemory bumpMachine.W
        (.list 1 (.option 0 .string)) 1 ⟨4, 0⟩ : RGen bumpMachine.W (fun _ => false) Unit) [] n₁ ()
        [y] readCode n₂ ∧
      ∀ ctx env a w, env.length = 2 →
        env[0]? = some (RVal.val (.list [.variant 0 none, .variant 1 (some (.string "wit"))])) →
        env[1]? = some (RVal.ptr a) →
        Accessible w.live (a + 4) (bumpMachine.size (.list 1 (.option 0 .string))) →
        execCode bumpMachine.step writeCode ctx env w = .error .oom ∨
        ∃ env₁ w₁ env₂, execCode bumpMachine.step writeCode ctx env w = .ok (env₁, w₁) ∧
          execCode bumpMachine.step readCode ctx env₁ w₁ = .ok (env₂, w₁) ∧
          env₂[y]? = some (RVal.val (.list [.variant 0 none, .variant 1 (some (.string "wit"))])) := by
  have hoption : Ty.Supported (.option 0 .string) := by
    refine .arms rfl (by decide) fun t ht => ?_
    obtain rfl : t = .string := by simpa using ht
    exact .string
  refine read_after_write bumpMachine_lawful (.list hoption) (.list fun v hv => ?_) .none
    ⟨4, 0⟩ 0 1 2
  rcases List.mem_pair.mp hv with rfl | rfl
  · exact .armNone rfl rfl
  · exact .armSome rfl rfl .string

/-! ## Core values -/

/-- A value of a type that fits the flat limit comes back from its core values. -/
theorem lift_after_lower (hM : M.W.Lawful M.p) {ty : Ty} (hty : ty.Valid)
    (hflat : (M.W.pushFlat ty).length ≤ maxFlatParams) (r : Realloc) (x n : Nat) :
    (∃ lowerCode outs n₁ liftCode y n₂,
      outs.length = (M.W.pushFlat ty).length ∧
      Emits (some r) (lower M.W ty : RGen M.W canon Unit) [x] n () outs lowerCode n₁ ∧
      Emits (some r) (lift M.W ty : RGen M.W canon Unit) outs n₁ () [y] liftCode n₂ ∧
      ∀ ctx env v w, Fits v ty → env.length = n → env[x]? = some (.val v) →
        execCode M.step lowerCode ctx env w = .error .oom ∨
        ∃ env₁ w₁ env₂, ∃ ws : List Word, execCode M.step lowerCode ctx env w = .ok (env₁, w₁) ∧
          lookup env₁ outs = some (ws.map .word) ∧ ws.map Word.ty = M.W.pushFlat ty ∧
          execCode M.step liftCode ctx env₁ w₁ = .ok (env₂, w₁) ∧ env₂[y]? = some (.val v)) ∧
    ∀ a j : WasmType, a.JoinsInto j → ∃ c c', cast a j = some c ∧ cast j a = some c' ∧
      ∀ w : Word, w.ty = a → w.Bounded M.p →
        ∃ w', c.apply M.p w = some w' ∧ w'.ty = j ∧ c'.apply M.p w' = some w := by
  have hs := hty.supported
  refine ⟨?_, fun a j haj => ?_⟩
  · have hlowerOk : LowerOk M canon (some r) ty := (lower_and_write hM hs).1 hflat
    have hliftOk : LiftOk M canon (some r) ty := (lift_and_read hM hs).1 hty hflat
    obtain ⟨lowerCode, outs, n₁, houts, hlower, hlowerComp⟩ := hlowerOk x n
    obtain ⟨liftCode, y, n₂, hlift, hliftComp⟩ := hliftOk outs n₁ houts
    refine ⟨lowerCode, outs, n₁, liftCode, y, n₂, houts, hlower, hlift, ?_⟩
    intro ctx env v w hv hn hx
    have hcode := hlowerComp ctx env v hn hx
    have hacc : Accessible w.live 0 0 := Or.inl rfl
    rcases lowered (T := M.toTarget) hM hs v hv w hacc with
      hoom | ⟨ws, w₁, news, hrun, -, hgrow, hheld⟩
    · exact Or.inl (Agree.run_error hcode hoom)
    · obtain ⟨env₁, hrun₁, hpre, hlen, hws⟩ := Computes_run_ok hcode hrun
      obtain ⟨hwords, hvalue⟩ := hheld w₁ (hgrow.agrees_self hacc)
      obtain ⟨env₂, hrun₂, -, -, hy⟩ := Computes_run_ok (hliftComp ctx env₁ ws hlen hws) hvalue.read
      exact Or.inr ⟨env₁, w₁, env₂, ws, hrun₁, hws, hwords.1, hrun₂, hy⟩
  · obtain ⟨c, c', hc, hc'⟩ := haj.cast_some
    refine ⟨c, c', hc, hc', fun w hw hb => ?_⟩
    obtain ⟨w', hinto, hty', -, hback⟩ := castWord_back hM.width haj hw hb
    exact ⟨w', by rw [apply_cast hM.width hc, hinto], hty', by rw [apply_cast hM.width hc', hback]⟩

/-- A result whose cases are a float and a string: the float is cast into the
slot of the string's pointer, and its length slot is padded. -/
theorem lift_after_lower_result :
    (∃ lowerCode outs n₁ liftCode y n₂,
      outs.length = (bumpMachine.W.pushFlat (.result 0 (some (.prim .f32)) (some .string))).length ∧
      Emits (some .none) (lower bumpMachine.W (.result 0 (some (.prim .f32)) (some .string)) :
        RGen bumpMachine.W (fun _ => false) Unit) [0] 1 () outs lowerCode n₁ ∧
      Emits (some .none) (lift bumpMachine.W (.result 0 (some (.prim .f32)) (some .string)) :
        RGen bumpMachine.W (fun _ => false) Unit) outs n₁ () [y] liftCode n₂ ∧
      ∀ ctx env v w, Fits v (.result 0 (some (.prim .f32)) (some .string)) → env.length = 1 →
        env[0]? = some (.val v) →
        execCode bumpMachine.step lowerCode ctx env w = .error .oom ∨
        ∃ env₁ w₁ env₂, ∃ ws : List Word, execCode bumpMachine.step lowerCode ctx env w = .ok (env₁, w₁) ∧
          lookup env₁ outs = some (ws.map .word) ∧ ws.map Word.ty =
            bumpMachine.W.pushFlat (.result 0 (some (.prim .f32)) (some .string)) ∧
          execCode bumpMachine.step liftCode ctx env₁ w₁ = .ok (env₂, w₁) ∧
          env₂[y]? = some (.val v)) ∧
    ∀ a j : WasmType, a.JoinsInto j → ∃ c c', cast a j = some c ∧ cast j a = some c' ∧
      ∀ w : Word, w.ty = a → w.Bounded bumpMachine.p →
        ∃ w', c.apply bumpMachine.p w = some w' ∧ w'.ty = j ∧
          c'.apply bumpMachine.p w' = some w := by
  refine lift_after_lower bumpMachine_lawful (.arms rfl (by decide) (by decide) fun t ht => ?_) ?_
    .none 0 1
  · rcases (by simpa using ht : t = .prim .f32 ∨ t = .string) with rfl | rfl
    · exact .prim _
    · exact .string
  · show (Ty.pushFlat _).length ≤ _
    rw [Ty.pushFlat, Ty.pushFlat, Ty.pushFlat]
    decide

end

end WitBindgen
