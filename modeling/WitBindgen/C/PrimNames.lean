import WitBindgen.C.Dtor

/-!
# The names of primitive types

A type made of primitives is named after its structure, and the name can be read
back: two such types have one name only if they have one structure. So a typedef
printed for another type id of the same name is a typedef of the same type.
-/

namespace WitBindgen.C

/-- The structures that a name is spelled for. -/
inductive Spelled : Shape → Prop
  | prim {p} : Spelled (.prim p)
  | string : Spelled .string
  | list {s} : Spelled s → Spelled (.list s)
  | option {s} : Spelled s → Spelled (.option s)
  | tuple {ss} : (∀ s ∈ ss, Spelled s) → Spelled (.tuple ss)
  | map {k s} : Spelled k → Spelled s → Spelled (.map k s)

theorem primToken_inj {p q : Prim} (h : primToken p = primToken q) : p = q := by
  revert h
  cases p <;> cases q <;> decide

theorem primToken_ne (p : Prim) :
    primToken p ≠ "string" ∧ primToken p ≠ "list" ∧ primToken p ≠ "option" ∧
      primToken p ≠ "map" := by
  cases p <;> decide

/-- No name is the beginning of another. -/
theorem Spelled.append_inj {s : Shape} (h : Spelled s) : ∀ {s' : Shape} {r r' : List Token},
    Spelled s' → pushTyName s ++ r = pushTyName s' ++ r' → s = s' ∧ r = r' := by
  induction h with
  | @prim p =>
    intro s' r r' h' heq
    obtain ⟨hstring, hlist, hoption, hmap⟩ := primToken_ne p
    cases h' with
    | prim =>
      simp only [pushTyName, List.cons_append, List.nil_append, List.cons.injEq,
        Token.word.injEq] at heq
      exact ⟨by rw [primToken_inj heq.1], heq.2⟩
    | _ => simp_all [pushTyName]
  | string =>
    intro s' r r' h' heq
    cases h' with
    | @prim q => exact absurd (by simp [pushTyName] at heq; exact heq.1.symm) (primToken_ne q).1
    | _ => simp_all [pushTyName]
  | list _ ih =>
    intro s' r r' h' heq
    cases h' with
    | @prim q => exact absurd (by simp [pushTyName] at heq; exact heq.1.symm) (primToken_ne q).2.1
    | list h' =>
      simp only [pushTyName, List.cons_append, List.cons.injEq, true_and] at heq
      obtain ⟨rfl, hr⟩ := ih h' heq
      exact ⟨rfl, hr⟩
    | _ => simp [pushTyName] at heq
  | option _ ih =>
    intro s' r r' h' heq
    cases h' with
    | @prim q =>
      exact absurd (by simp [pushTyName] at heq; exact heq.1.symm) (primToken_ne q).2.2.1
    | option h' =>
      simp only [pushTyName, List.cons_append, List.cons.injEq, true_and] at heq
      obtain ⟨rfl, hr⟩ := ih h' heq
      exact ⟨rfl, hr⟩
    | _ => simp [pushTyName] at heq
  | map _ _ ihk ihv =>
    intro s' r r' h' heq
    cases h' with
    | @prim q =>
      exact absurd (by simp [pushTyName] at heq; exact heq.1.symm) (primToken_ne q).2.2.2
    | map hk' hv' =>
      simp only [pushTyName, List.cons_append, List.append_assoc, List.cons.injEq,
        true_and] at heq
      obtain ⟨rfl, hrest⟩ := ihk hk' heq
      obtain ⟨rfl, hr⟩ := ihv hv' hrest
      exact ⟨rfl, hr⟩
    | _ => simp [pushTyName] at heq
  | @tuple ss hss ih =>
    intro s' r r' h' heq
    cases h' with
    | @tuple ss' hss' =>
      simp only [pushTyName, List.cons_append, List.cons.injEq, Token.tuple.injEq] at heq
      obtain ⟨hlen, heq⟩ := heq
      suffices ss = ss' ∧ r = r' from ⟨by rw [this.1], this.2⟩
      -- the lengths agree, so the members are read off one by one
      clear hss
      induction ss generalizing ss' with
      | nil =>
        obtain rfl := List.eq_nil_of_length_eq_zero hlen.symm
        exact ⟨rfl, heq⟩
      | cons s ss ihss =>
        cases ss' with
        | nil => cases hlen
        | cons s' ss' =>
          simp only [List.map_cons, List.flatten_cons, List.append_assoc] at heq
          obtain ⟨rfl, hrest⟩ := ih s (List.mem_cons_self ..)
            (hss' s' (List.mem_cons_self ..)) heq
          obtain ⟨rfl, hr⟩ := ihss (fun t ht => ih t (List.mem_cons_of_mem s ht))
            (fun t ht => hss' t (List.mem_cons_of_mem _ ht)) (Nat.succ.inj hlen) hrest
          exact ⟨rfl, hr⟩
    | _ => simp [pushTyName] at heq

theorem Spelled.name_inj {s s' : Shape} (h : Spelled s) (h' : Spelled s')
    (heq : pushTyName s = pushTyName s') : s = s' :=
  (h.append_inj h' (congrArg (· ++ []) heq)).1

/-- Everything the types of `known` are made of is known, and none of it is an
error context that something is made of. -/
structure Known (D : Defs) (known : List TypeId) : Prop where
  closed : ∀ i ∈ known, ∀ j, .id j ∈ (D.types i).components → j ∈ known
  plain : ∀ i ∈ known, .errorContext ∉ freedTypes (D.types i)

theorem Known.spelled {D : Defs} {known : List TypeId} (h : Known D known) {i : TypeId}
    (hi : i ∈ known) (hprim : D.isPrim i = true) : Spelled (D.shape (.id i)) := by
  rw [Defs.isPrim] at hprim
  generalize D.weight (.id i) = n at hprim
  induction n generalizing i with
  | zero => cases hprim
  | succ n ih =>
    rw [Defs.isPrimTo, Bool.and_eq_true] at hprim
    have hclosed := h.closed i hi
    have hplain := h.plain i hi
    have sub : ∀ t ∈ (D.types i).components, t ≠ .errorContext → D.isPrimTo n t = true →
        Spelled (D.shape t) := by
      intro t ht hne hp
      cases t with
      | prim p => exact .prim
      | string => exact .string
      | errorContext => exact absurd rfl hne
      | id j => exact ih (hclosed j ht) hp
    rw [D.shape_id]
    cases hk : D.types i with
    | list t | option t | type t =>
      rw [hk] at hprim sub hplain
      have ht : Spelled (D.shape t) := sub t (List.mem_singleton_self t)
        (fun heq => hplain (heq ▸ List.mem_singleton_self t)) hprim.2
      first
        | exact .list ht
        | exact .option ht
        | exact ht
    | tuple ts =>
      rw [hk] at hprim sub hplain
      refine .tuple fun s hs => ?_
      obtain ⟨t, ht, rfl⟩ := List.mem_map.mp hs
      exact sub t ht (fun heq => hplain (heq ▸ ht)) (List.all_eq_true.mp hprim.2 t ht)
    | map k v =>
      rw [hk] at hprim sub hplain
      obtain ⟨hkey, hvalue⟩ := Bool.and_eq_true_iff.mp hprim.2
      have hk' : k ∈ TypeDefKind.components (.map k v) := List.mem_cons_self ..
      have hv' : v ∈ TypeDefKind.components (.map k v) :=
        List.mem_cons_of_mem k (List.mem_singleton_self v)
      exact .map (sub k hk' (fun heq => hplain (heq ▸ hk')) hkey)
        (sub v hv' (fun heq => hplain (heq ▸ hv')) hvalue)
    | _ => rw [hk] at hprim; cases hprim.2

end WitBindgen.C
