import WitBindgen.Library.Heap
import Mathlib.Data.List.Infix
import Mathlib.Data.List.Forall2

/-!
# Block-structured straight-line code

Code over an arbitrary instruction type: a statement names its operands by the
position at which their values were defined and may own blocks, which its
instruction runs as often as it likes. A block sees everything defined before
it and hands back some results; what it defines itself goes out of scope with
it, so the values in scope are a list that only grows.

`Agree` relates two runs that fault alike and end in the same world. It is the
form in which emitted code is compared with what it is meant to compute.
-/

namespace Heap

variable {ε α β γ δ : Type}

/-! ## Runs that agree -/

/-- From every world the two runs stop with the same fault, or end in the same
world with results related by `R`. -/
def Agree (R : α → β → Prop) (x : Exec ε α) (y : Exec ε β) : Prop :=
  ∀ w, match x w, y w with
    | .ok (a, w₁), .ok (b, w₂) => w₁ = w₂ ∧ R a b
    | .error e, .error e' => e = e'
    | _, _ => False

theorem Agree.pure {R : α → β → Prop} {a : α} {b : β} (h : R a b) :
    Agree (ε := ε) R (Pure.pure a) (Pure.pure b) := fun _ => ⟨rfl, h⟩

theorem Agree.refl (x : Exec ε α) : Agree Eq x x := by
  intro w
  cases x w with
  | error e => rfl
  | ok p => exact ⟨rfl, rfl⟩

theorem Agree.stuck {R : α → β → Prop} : Agree (ε := ε) R stuck stuck := fun _ => rfl

theorem Agree.bind {R : α → β → Prop} {S : γ → δ → Prop} {x : Exec ε α} {y : Exec ε β}
    {f : α → Exec ε γ} {g : β → Exec ε δ} (h : Agree R x y)
    (hfg : ∀ a b, R a b → Agree S (f a) (g b)) : Agree S (x >>= f) (y >>= g) := by
  intro w
  have hw := h w
  rw [run_bind, run_bind]
  cases hx : x w with
  | error e =>
    cases hy : y w with
    | error e' => simpa [hx, hy] using hw
    | ok q => simp [hx, hy] at hw
  | ok p =>
    cases hy : y w with
    | error e' => simp [hx, hy] at hw
    | ok q =>
      obtain ⟨a, w₁⟩ := p
      obtain ⟨b, w₂⟩ := q
      simp only [hx, hy] at hw
      obtain ⟨rfl, hab⟩ := hw
      exact hfg a b hab w₁

/-- Both runs need the same value first. -/
theorem Agree.require {ι : Type} {R : α → β → Prop} {o : Option ι} {f : ι → Exec ε α}
    {g : ι → Exec ε β} (h : ∀ i, o = some i → Agree R (f i) (g i)) :
    Agree R (require o >>= f) (require o >>= g) := by
  cases o with
  | none => exact Agree.stuck
  | some i => exact h i rfl

theorem Agree.mono {R S : α → β → Prop} {x : Exec ε α} {y : Exec ε β} (h : Agree R x y)
    (himp : ∀ a b, R a b → S a b) : Agree S x y := by
  intro w
  have hw := h w
  cases hx : x w with
  | error e =>
    cases hy : y w with
    | error e' => simpa [hx, hy] using hw
    | ok q => simp [hx, hy] at hw
  | ok p =>
    cases hy : y w with
    | error e' => simp [hx, hy] at hw
    | ok q =>
      simp only [hx, hy] at hw
      exact ⟨hw.1, himp _ _ hw.2⟩

/-- A final computation on the right can be read as part of the relation. -/
theorem Agree.comap {R : α → γ → Prop} {x : Exec ε α} {y : Exec ε β} {f : β → γ}
    (h : Agree R x (y >>= fun b => Pure.pure (f b))) : Agree (fun a b => R a (f b)) x y := by
  intro w
  have hw := h w
  rw [run_bind] at hw
  cases hx : x w <;> cases hy : y w <;> simp only [hx, hy, run_pure] at hw ⊢ <;> exact hw

/-- What the specification finishes with, the code finishes with. -/
theorem Agree.run_ok {R : α → β → Prop} {x : Exec ε α} {y : Exec ε β} (h : Agree R x y)
    {w w' : World ε} {b : β} (hy : y w = .ok (b, w')) : ∃ a, x w = .ok (a, w') ∧ R a b := by
  have hw := h w
  rw [hy] at hw
  cases hx : x w with
  | error e => simp [hx] at hw
  | ok p =>
    simp only [hx] at hw
    exact ⟨p.1, by rw [← hw.1], hw.2⟩

theorem Agree.run_error {R : α → β → Prop} {x : Exec ε α} {y : Exec ε β} (h : Agree R x y)
    {w : World ε} {e : Fault} (hy : y w = .error e) : x w = .error e := by
  have hw := h w
  rw [hy] at hw
  cases hx : x w with
  | error e' => simp only [hx] at hw; rw [hw]
  | ok p => simp [hx] at hw

/-- Lists of runs that agree pairwise, run in order. -/
theorem Agree.mapM {ι κ : Type} {R : α → β → Prop} {f : ι → Exec ε α} {g : κ → Exec ε β}
    {xs : List ι} {ys : List κ} (h : List.Forall₂ (fun x y => Agree R (f x) (g y)) xs ys) :
    Agree (List.Forall₂ R) (xs.mapM f) (ys.mapM g) := by
  induction h with
  | nil => exact Agree.pure .nil
  | cons hxy _ ih =>
    rw [List.mapM_cons, List.mapM_cons]
    exact hxy.bind fun a b hab => ih.bind fun as bs habs => Agree.pure (.cons hab habs)

theorem Agree.forM {ι κ : Type} {f : ι → Exec ε PUnit} {g : κ → Exec ε PUnit}
    {xs : List ι} {ys : List κ}
    (h : List.Forall₂ (fun x y => Agree Eq (f x) (g y)) xs ys) :
    Agree Eq (xs.forM f) (ys.forM g) := by
  induction h with
  | nil => exact Agree.pure rfl
  | cons hxy _ ih => exact hxy.bind fun _ _ _ => ih

end Heap

namespace Code

open Heap

variable {ι κ ν ε β γ : Type}

/-! ## Syntax -/

mutual
/-- An instruction, the positions of its operands, and the blocks it owns. -/
inductive Stmt (ι : Type) where
  | mk (inst : ι) (operands : List Nat) (blocks : List (Block ι))
/-- A body and the positions of the values it hands back. -/
inductive Block (ι : Type) where
  | mk (body : List (Stmt ι)) (results : List Nat)
end

def Block.results : Block ι → List Nat
  | .mk _ rs => rs

def Block.body : Block ι → List (Stmt ι)
  | .mk b _ => b

/-! ## Running code -/

/-- The values at the positions `xs`. -/
def lookup (env : List ν) (xs : List Nat) : Option (List ν) := xs.mapM (env[·]?)

/-- The meaning of an instruction: given the context of the enclosing block,
what each of its own blocks does in a context of its choice, and its operands,
it produces its results. -/
abbrev Meaning (ι κ ν ε : Type) : Type :=
  ι → κ → List (κ → Exec ε (List ν)) → List ν → Exec ε (List ν)

variable (step : Meaning ι κ ν ε)

mutual
def execStmt : Stmt ι → κ → List ν → Exec ε (List ν)
  | .mk inst operands blocks, ctx, env => do
      let vs ← require (lookup env operands)
      let rs ← step inst ctx (execBlocks blocks env) vs
      pure (env ++ rs)
/-- Run a body in the scope `env`. The result is the scope at its end. -/
def execCode : List (Stmt ι) → κ → List ν → Exec ε (List ν)
  | [], _, env => pure env
  | s :: ss, ctx, env => do
      let env' ← execStmt s ctx env
      execCode ss ctx env'
def execBlock : Block ι → List ν → κ → Exec ε (List ν)
  | .mk body results, env, ctx => do
      let env' ← execCode body ctx env
      require (lookup env' results)
def execBlocks : List (Block ι) → List ν → List (κ → Exec ε (List ν))
  | [], _ => []
  | b :: bs, env => execBlock b env :: execBlocks bs env
end

variable {step}

theorem execBlocks_eq_map (bs : List (Block ι)) (env : List ν) :
    execBlocks step bs env = bs.map (execBlock step · env) := by
  induction bs with
  | nil => rfl
  | cons b bs ih => rw [execBlocks, ih, List.map_cons]

theorem execCode_append (c c' : List (Stmt ι)) (ctx : κ) (env : List ν) :
    execCode step (c ++ c') ctx env =
      (execCode step c ctx env >>= fun env' => execCode step c' ctx env') := by
  induction c generalizing env with
  | nil => simp [execCode]
  | cons s ss ih => simp [execCode, ih]

theorem execCode_singleton (s : Stmt ι) (ctx : κ) (env : List ν) :
    execCode step [s] ctx env = execStmt step s ctx env := by
  simp [execCode]

@[simp] theorem lookup_nil (env : List ν) : lookup env [] = some [] := rfl

theorem lookup_cons {env : List ν} {x : Nat} {xs : List Nat} {v : ν} {vs : List ν}
    (h : env[x]? = some v) (hs : lookup env xs = some vs) :
    lookup env (x :: xs) = some (v :: vs) := by
  unfold lookup at hs ⊢
  simp [List.mapM_cons, h, hs]

theorem lookup_cons_inv {env : List ν} {x : Nat} {xs : List Nat} {v : ν} {vs : List ν}
    (h : lookup env (x :: xs) = some (v :: vs)) : env[x]? = some v ∧ lookup env xs = some vs := by
  unfold lookup at h ⊢
  simp only [List.mapM_cons, Option.pure_def, Option.bind_eq_bind, Option.bind_eq_some_iff,
    Option.some.injEq, List.cons.injEq] at h
  obtain ⟨v', hv, us, hus, rfl, rfl⟩ := h
  exact ⟨hv, hus⟩

theorem lookup_one {env : List ν} {x : Nat} {v : ν} (h : env[x]? = some v) :
    lookup env [x] = some [v] := lookup_cons h (lookup_nil env)

theorem lookup_two {env : List ν} {x y : Nat} {u v : ν} (h : env[x]? = some u)
    (h' : env[y]? = some v) : lookup env [x, y] = some [u, v] :=
  lookup_cons h (lookup_one h')

theorem lookup_append {env : List ν} {xs ys : List Nat} {us vs : List ν}
    (h : lookup env xs = some us) (h' : lookup env ys = some vs) :
    lookup env (xs ++ ys) = some (us ++ vs) := by
  unfold lookup at h h' ⊢
  simp [List.mapM_append, h, h']

theorem mapM_length {α : Type} {f : α → Option β} {xs : List α} {ys : List β}
    (h : xs.mapM f = some ys) : ys.length = xs.length := by
  induction xs generalizing ys with
  | nil => cases h; rfl
  | cons x xs ih =>
    simp only [List.mapM_cons, Option.pure_def, Option.bind_eq_bind,
      Option.bind_eq_some_iff, Option.some.injEq] at h
    obtain ⟨y, -, us, hus, rfl⟩ := h
    simp [ih hus]

theorem lookup_length {env : List ν} {xs : List Nat} {vs : List ν}
    (h : lookup env xs = some vs) : vs.length = xs.length := mapM_length h

theorem lookup_take {env : List ν} {xs : List Nat} {vs : List ν} (h : lookup env xs = some vs)
    (k : Nat) : lookup env (xs.take k) = some (vs.take k) := by
  induction xs generalizing vs k with
  | nil => cases h; simp
  | cons x xs ih =>
    obtain ⟨v, us, rfl⟩ := List.exists_cons_of_length_eq_add_one (lookup_length h)
    obtain ⟨hv, hus⟩ := lookup_cons_inv h
    cases k with
    | zero => rfl
    | succ k => exact lookup_cons hv (ih hus k)

theorem lookup_drop {env : List ν} {xs : List Nat} {vs : List ν} (h : lookup env xs = some vs)
    (k : Nat) : lookup env (xs.drop k) = some (vs.drop k) := by
  induction xs generalizing vs k with
  | nil => cases h; simp
  | cons x xs ih =>
    obtain ⟨v, us, rfl⟩ := List.exists_cons_of_length_eq_add_one (lookup_length h)
    obtain ⟨-, hus⟩ := lookup_cons_inv h
    cases k with
    | zero => exact h
    | succ k => exact ih hus k

/-- What a list of positions holds, position by position. -/
theorem getElem?_of_lookup {env : List ν} {xs : List Nat} {vs : List ν}
    (h : lookup env xs = some vs) : List.Forall₂ (fun x v => env[x]? = some v) xs vs := by
  induction xs generalizing vs with
  | nil => cases h; exact .nil
  | cons x xs ih =>
    unfold lookup at h ih
    simp only [List.mapM_cons, Option.pure_def, Option.bind_eq_bind,
      Option.bind_eq_some_iff, Option.some.injEq] at h
    obtain ⟨v, hv, us, hus, rfl⟩ := h
    exact .cons hv (ih hus)

theorem getElem?_mono {env env' : List ν} (h : env <+: env') {x : Nat} {v : ν}
    (hx : env[x]? = some v) : env'[x]? = some v := by
  obtain ⟨t, rfl⟩ := h
  obtain ⟨hlt, -⟩ := List.getElem?_eq_some_iff.mp hx
  rwa [List.getElem?_append_left hlt]

/-- Values stay in scope. -/
theorem lookup_mono {env env' : List ν} (h : env <+: env') {xs : List Nat}
    {vs : List ν} (hx : lookup env xs = some vs) : lookup env' xs = some vs := by
  induction xs generalizing vs with
  | nil => exact hx
  | cons x xs ih =>
    unfold lookup at hx ih ⊢
    simp only [List.mapM_cons, Option.pure_def, Option.bind_eq_bind,
      Option.bind_eq_some_iff, Option.some.injEq] at hx ⊢
    obtain ⟨v, hv, us, hus, rfl⟩ := hx
    exact ⟨v, getElem?_mono h hv, us, ih hus, rfl⟩

/-- The positions of freshly defined values hold those values. -/
theorem lookup_range' (env vs : List ν) :
    lookup (env ++ vs) (List.range' env.length vs.length) = some vs := by
  induction vs generalizing env with
  | nil => rfl
  | cons v vs ih =>
    rw [List.length_cons, List.range'_succ]
    apply lookup_cons
    · simp
    · have h := ih (env ++ [v])
      simpa using h

/-! ## Code that computes a specification -/

/-- From the scope `env`, whatever the rest of the world, `code` does what
`spec` does; the scope grows to length `n'` and `Q` relates it to the result. -/
def Computes (step : Meaning ι κ ν ε) (code : List (Stmt ι)) (ctx : κ) (env : List ν)
    (n' : Nat) (spec : Exec ε β) (Q : List ν → β → Prop) : Prop :=
  Agree (fun env' b => env <+: env' ∧ env'.length = n' ∧ Q env' b)
    (execCode step code ctx env) spec

theorem Computes.nil {ctx : κ} {env : List ν} {b : β} {Q : List ν → β → Prop}
    (h : Q env b) : Computes step [] ctx env env.length (pure b) Q :=
  Agree.pure ⟨List.prefix_refl _, rfl, h⟩

theorem Computes.append {c c' : List (Stmt ι)} {ctx : κ} {env : List ν} {n₁ n₂ : Nat}
    {spec : Exec ε β} {spec' : β → Exec ε γ} {Q : List ν → β → Prop}
    {Q' : List ν → γ → Prop} (h : Computes step c ctx env n₁ spec Q)
    (h' : ∀ env₁ b, env <+: env₁ → env₁.length = n₁ → Q env₁ b →
      Computes step c' ctx env₁ n₂ (spec' b) Q') :
    Computes step (c ++ c') ctx env n₂ (spec >>= spec') Q' := by
  unfold Computes
  rw [execCode_append]
  refine Agree.bind h ?_
  rintro env₁ b ⟨hp, hn, hq⟩
  exact (h' env₁ b hp hn hq).mono fun env₂ c ⟨hp', hn', hq'⟩ => ⟨hp.trans hp', hn', hq'⟩

theorem Computes.mono {c : List (Stmt ι)} {ctx : κ} {env : List ν} {n₁ : Nat}
    {spec : Exec ε β} {Q Q' : List ν → β → Prop} (h : Computes step c ctx env n₁ spec Q)
    (himp : ∀ env₁ b, env <+: env₁ → env₁.length = n₁ → Q env₁ b → Q' env₁ b) :
    Computes step c ctx env n₁ spec Q' :=
  Agree.mono h fun env₁ b ⟨hp, hn, hq⟩ => ⟨hp, hn, himp env₁ b hp hn hq⟩

/-- Adding a final computation on the specification side only. -/
theorem Computes.map {c : List (Stmt ι)} {ctx : κ} {env : List ν} {n₁ : Nat}
    {spec : Exec ε β} {f : β → γ} {Q : List ν → β → Prop} {Q' : List ν → γ → Prop}
    (h : Computes step c ctx env n₁ spec Q)
    (himp : ∀ env₁ b, env <+: env₁ → env₁.length = n₁ → Q env₁ b → Q' env₁ (f b)) :
    Computes step c ctx env n₁ (f <$> spec) Q' := by
  unfold Computes
  rw [map_eq_pure_bind, ← bind_pure (execCode step c ctx env)]
  exact Agree.bind h fun env₁ b ⟨hp, hn, hq⟩ =>
    Agree.pure ⟨hp, hn, himp env₁ b hp hn hq⟩

theorem Computes.comap {c : List (Stmt ι)} {ctx : κ} {env : List ν} {n₁ : Nat}
    {spec : Exec ε β} {f : β → γ} {Q : List ν → γ → Prop}
    (h : Computes step c ctx env n₁ (spec >>= fun b => pure (f b)) Q) :
    Computes step c ctx env n₁ spec fun env' b => Q env' (f b) :=
  Agree.comap h

/-- One statement: its instruction, on the operands in scope, does what the
specification does. -/
theorem Computes.stmt {inst : ι} {ops : List Nat} {bs : List (Block ι)} {ctx : κ}
    {env vs : List ν} {k : Nat} {spec : Exec ε β} {Q : List ν → β → Prop}
    (hops : lookup env ops = some vs)
    (h : Agree (fun rs b => rs.length = k ∧ Q (env ++ rs) b)
      (step inst ctx (bs.map (execBlock step · env)) vs) spec) :
    Computes step [.mk inst ops bs] ctx env (env.length + k) spec Q := by
  unfold Computes
  rw [execCode_singleton, execStmt, hops, require_some, pure_bind, execBlocks_eq_map]
  have hb := h.bind (f := fun rs => (pure (env ++ rs) : Exec ε (List ν))) (g := pure)
    (S := fun env' b => env <+: env' ∧ env'.length = env.length + k ∧ Q env' b)
    fun rs b ⟨hlen, hq⟩ => Agree.pure ⟨List.prefix_append _ _, by simp [hlen], hq⟩
  rwa [bind_pure] at hb

/-- A block whose body computes `spec` computes it too, and hands back the
values found at its result positions. -/
theorem execBlock_agree {body : List (Stmt ι)} {results : List Nat} {ctx : κ}
    {env : List ν} {n' : Nat} {spec : Exec ε β} {f : β → List ν}
    (h : Computes step body ctx env n' spec fun env' b =>
      lookup env' results = some (f b)) :
    Agree (fun rs b => rs.length = results.length ∧ rs = f b)
      (execBlock step (.mk body results) env ctx) spec := by
  rw [execBlock]
  have hb := Agree.bind h (f := fun env' => (require (lookup env' results) : Exec ε _))
    (g := pure) (S := fun rs b => rs.length = results.length ∧ rs = f b)
    fun env' b ⟨_, _, hq⟩ => by
      rw [hq, require_some]
      exact Agree.pure ⟨lookup_length hq, rfl⟩
  rwa [bind_pure] at hb

end Code
