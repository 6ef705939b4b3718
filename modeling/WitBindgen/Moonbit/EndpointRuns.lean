import WitBindgen.Library.Outcome
import WitBindgen.Moonbit.EndpointPlan

/-!
# Traversals in step with the endpoint plan

The sites of a function are its futures and streams in post-order, so those in the payload
of one come right before it. A traversal asks for the futures and streams outside of any
payload, from left to right: behind the cursor, the first site with the type of the next one
is its own, since no type is in its own payload. The code that drops a returned result is the
one traversal that asks for the sites of the result with the cursor in front of the parameters.
-/

namespace WitBindgen.Moonbit

open Generator Traces

/-! ## What `preprocess` lets through -/

section
variable {ty t : Ty} {a b : Bool} {e : Endpoint}

theorem combination_endpoint (he : ty.endpoint? = some e)
    (h : typeContainsCombination a b ty = .ok false) :
    a = false ∧ ∀ t, e.payload = some t → typeContainsCombination false true t = .ok false := by
  cases ty with
  | future id p | stream id p =>
    cases he
    rw [typeContainsCombination.eq_def] at h
    cases a with
    | true => cases h
    | false =>
      refine ⟨rfl, fun t ht => ?_⟩
      cases ht
      exact h
  | _ => cases he

/-- The flags with which the search goes on in the parts of a type. -/
theorem combination_parts (he : ty.endpoint? = none)
    (h : typeContainsCombination a b ty = .ok false) : ∃ a' b',
      (∀ t ∈ ty.children, typeContainsCombination a' b' t = .ok false) ∧ (a = true → a' = true) ∧
        ∀ id t n, ty = .fixedLengthList id t n → a' = true := by
  have hsame : (∀ t ∈ ty.children, typeContainsCombination a b t = .ok false) →
      (∀ id t n, ty ≠ .fixedLengthList id t n) → ∃ a' b',
      (∀ t ∈ ty.children, typeContainsCombination a' b' t = .ok false) ∧ (a = true → a' = true) ∧
        ∀ id t n, ty = .fixedLengthList id t n → a' = true :=
    fun hparts hne => ⟨a, b, hparts, id, fun id t n hty => absurd hty (hne id t n)⟩
  cases ty with
  | future | stream => cases he
  | fixedLengthList id t n =>
    rw [typeContainsCombination] at h
    cases b with
    | true => cases h
    | false =>
      refine ⟨true, false, fun u hu => ?_, fun _ => rfl, fun _ _ _ _ => rfl⟩
      rw [List.mem_singleton.mp hu]
      exact h
  | type id t | list id t =>
    rw [typeContainsCombination] at h
    refine hsame (fun u hu => ?_) (by simp)
    rw [List.mem_singleton.mp hu]
    exact h
  | map id k v =>
    rw [typeContainsCombination] at h
    refine hsame (fun u hu => anyOk_false h _ ?_) (by simp)
    rcases List.mem_pair.mp hu with rfl | rfl
    · exact List.mem_cons_self
    · exact List.mem_cons_of_mem _ List.mem_cons_self
  | record id name fields =>
    rw [typeContainsCombination] at h
    refine hsame (fun u hu => ?_) (by simp)
    obtain ⟨f, hf, rfl⟩ := List.mem_map.mp hu
    exact anyOk_false h _ (List.mem_map.mpr ⟨f, hf, rfl⟩)
  | tuple id types =>
    rw [typeContainsCombination] at h
    exact hsame (fun u hu => anyOk_false h _ (List.mem_map.mpr ⟨u, hu, rfl⟩)) (by simp)
  | variant id name cases' =>
    rw [typeContainsCombination] at h
    refine hsame (fun u hu => ?_) (by simp)
    obtain ⟨c, hc, hcu⟩ := List.mem_map.mp (List.reduceOption_mem_iff.1 hu)
    have hcase := anyOk_false h _ (List.mem_map.mpr ⟨c, hc, rfl⟩)
    split at hcase
    · next hnone => rw [hnone] at hcu; cases hcu
    · next t hsome => rw [hsome] at hcu; cases hcu; exact hcase
  | option id t =>
    rw [typeContainsCombination] at h
    refine hsame (fun u hu => ?_) (by simp)
    rw [List.mem_singleton.mp hu]
    exact h
  | result id ok err =>
    rw [typeContainsCombination.eq_def] at h
    have hall := anyOk_false h
    refine hsame (fun u hu => ?_) (by simp)
    rcases List.mem_pair.mp (List.reduceOption_mem_iff.1 hu) with rfl | rfl
    · exact hall _ List.mem_cons_self
    · exact hall _ (List.mem_cons_of_mem _ List.mem_cons_self)
  | _ => exact hsame (fun u hu => by cases hu) (by simp)

theorem apart_of_accepted (h : typeContainsCombination a b ty = .ok false) :
    ty.Apart ∧ (a = true → ty.endpoints = []) := by
  induction ty using Ty.by_children generalizing a b with
  | endpoint ty e he _ =>
    obtain ⟨rfl, -⟩ := combination_endpoint he h
    refine ⟨.intro (fun id t n hty => ?_) fun t ht => ?_, nofun⟩
    · rw [hty] at he; cases he
    · cases ty with
      | future | stream => cases ht
      | _ => cases he
  | children ty he ih =>
    obtain ⟨a', b', hparts, ha, hfixed⟩ := combination_parts he h
    refine ⟨.intro (fun id t n hty => ?_) fun t ht => (ih t ht (hparts t ht)).1, fun htrue => ?_⟩
    · have ht : t ∈ ty.children := by rw [hty]; exact List.mem_cons_self
      exact (ih t ht (hparts t ht)).2 (hfixed id t n hty)
    · rw [Ty.endpoints_children he]
      exact List.flatMap_eq_nil_iff.mpr fun t ht => (ih t ht (hparts t ht)).2 (ha htrue)

/-- What is in the payloads is accepted too. -/
theorem payload_accepted (h : typeContainsCombination a b ty = .ok false) :
    ∀ e ∈ ty.allEndpoints, ∀ t, e.payload = some t →
      typeContainsCombination false true t = .ok false := by
  induction ty using Ty.by_children generalizing a b with
  | endpoint ty e he ih =>
    obtain ⟨-, hpayload⟩ := combination_endpoint he h
    intro e' he'
    rw [Ty.allEndpoints_self he] at he'
    rcases List.mem_append.mp he' with he' | he'
    · rw [Endpoint.nested] at he'
      cases hp : e.payload with
      | none => rw [hp] at he'; cases he'
      | some t => rw [hp] at he'; exact ih t hp (hpayload t hp) e' he'
    · rw [List.mem_singleton.mp he']
      exact hpayload
  | children ty he ih =>
    obtain ⟨a', b', hparts, -, -⟩ := combination_parts he h
    intro e' he'
    rw [Ty.allEndpoints_children he] at he'
    obtain ⟨t, ht, he'⟩ := List.mem_flatMap.mp he'
    exact ih t ht (hparts t ht) e' he'

theorem pushAll_ok {xs : List Ty} (h : ∀ t ∈ xs, findFuturesAndStreamsInType t =
      .ok (t.allEndpoints.map (·.ty))) : pushAll (xs.map findFuturesAndStreamsInType) =
      .ok ((xs.flatMap Ty.allEndpoints).map (·.ty)) := by
  induction xs with
  | nil => rfl
  | cons t xs ih =>
    rw [List.map_cons, pushAll, h t List.mem_cons_self,
      ih fun u hu => h u (List.mem_cons_of_mem _ hu), List.flatMap_cons, List.map_append]
    rfl

theorem pushAll_single (x : Except Panic (List TypeId)) : pushAll [x] = x := by
  cases x with
  | error e => rfl
  | ok found => exact congrArg Except.ok (List.append_nil found)

theorem pushAll_arms (arms : List (Option Ty)) :
    pushAll (arms.map fun o => o.elim (.ok []) findFuturesAndStreamsInType) =
      pushAll (arms.reduceOption.map findFuturesAndStreamsInType) := by
  induction arms with
  | nil => rfl
  | cons o arms ih =>
    cases o with
    | none =>
      rw [List.reduceOption_cons_of_none, ← ih, List.map_cons, pushAll]
      cases pushAll (arms.map fun o => o.elim (.ok []) findFuturesAndStreamsInType) <;> rfl
    | some t => rw [List.reduceOption_cons_of_some, List.map_cons, List.map_cons, pushAll, pushAll, ih]; rfl

/-- The search of the backend finds what there is, in post-order. -/
theorem find_ok (h : typeContainsCombination a b ty = .ok false) :
    findFuturesAndStreamsInType ty = .ok (ty.allEndpoints.map (·.ty)) := by
  induction ty using Ty.by_children generalizing a b with
  | endpoint ty e he ih =>
    obtain ⟨-, hpayload⟩ := combination_endpoint he h
    rw [Ty.allEndpoints_self he, List.map_append, Endpoint.nested]
    cases ty with
    | future id p | stream id p =>
      cases he
      rw [findFuturesAndStreamsInType.eq_def]
      cases p with
      | none => rfl
      | some t =>
        dsimp only
        rw [ih t rfl (hpayload t rfl)]
        rfl
    | _ => cases he
  | children ty he ih =>
    obtain ⟨a', b', hparts, -, -⟩ := combination_parts he h
    have hall := pushAll_ok fun t ht => ih t ht (hparts t ht)
    rw [Ty.allEndpoints_children he, ← hall]
    have harms : ∀ arms, ty.arms = some arms →
        pushAll (arms.map fun o => o.elim (.ok []) findFuturesAndStreamsInType) =
          pushAll (ty.children.map findFuturesAndStreamsInType) := fun arms ha => by
      rw [Ty.children_arms ha, pushAll_arms]
    cases ty with
    | future | stream => cases he
    | type id t | list id t | fixedLengthList id t n | option id t =>
      rw [findFuturesAndStreamsInType]
      exact (pushAll_single _).symm
    | map id k v => rw [findFuturesAndStreamsInType]; rfl
    | record id name fields =>
      rw [findFuturesAndStreamsInType]
      change _ = pushAll ((fields.map (·.2)).map findFuturesAndStreamsInType)
      rw [List.map_map]
      rfl
    | tuple id types => rw [findFuturesAndStreamsInType]; rfl
    | variant id name cases' =>
      rw [findFuturesAndStreamsInType, ← harms _ rfl, List.map_map]
      refine congrArg pushAll (List.map_congr_left fun c _ => ?_)
      obtain ⟨n, o⟩ := c
      cases o <;> rfl
    | result id ok err =>
      rw [findFuturesAndStreamsInType.eq_def, ← harms _ rfl]
      cases ok <;> cases err <;> rfl
    | unknown id => rw [typeContainsCombination] at h; cases h
    | _ => rw [findFuturesAndStreamsInType]; rfl

end

/-! ## The plan -/

/-- Each future and stream comes right after those in its payload. -/
def PostOrder (es : List Endpoint) : Prop :=
  ∀ before e after, es = before ++ e :: after → ∃ front, before = front ++ e.nested

theorem PostOrder.append {es es' : List Endpoint} (h : PostOrder es) (h' : PostOrder es') :
    PostOrder (es ++ es') := by
  intro before e after heq
  rcases List.append_eq_append_iff.mp heq with ⟨more, rfl, hmore⟩ | ⟨more, rfl, hmore⟩
  · obtain ⟨front, rfl⟩ := h' more e after hmore
    exact ⟨es ++ front, (List.append_assoc ..).symm⟩
  · cases more with
    | nil =>
      obtain ⟨front, hfront⟩ := h' [] e after hmore.symm
      exact ⟨before ++ front, by rw [List.append_assoc, ← hfront, List.append_nil]⟩
    | cons x more =>
      cases hmore
      exact h before e more rfl

theorem PostOrder.flatMap {types : List Ty} (h : ∀ t ∈ types, PostOrder t.allEndpoints) :
    PostOrder (types.flatMap Ty.allEndpoints) := by
  induction types with
  | nil => intro before e after heq; cases before <;> cases heq
  | cons t types ih =>
    rw [List.flatMap_cons]
    exact (h t List.mem_cons_self).append (ih fun u hu => h u (List.mem_cons_of_mem _ hu))

theorem postOrder_allEndpoints (ty : Ty) : PostOrder ty.allEndpoints := by
  induction ty using Ty.by_children with
  | endpoint ty e he ih =>
    rw [Ty.allEndpoints_self he]
    intro before e' after heq
    rcases List.append_eq_append_iff.mp heq with ⟨more, rfl, hmore⟩ | ⟨more, hbefore, hmore⟩
    · cases more with
      | nil => cases hmore; exact ⟨[], by rw [List.append_nil]; rfl⟩
      | cons x more => cases more <;> cases hmore
    · cases more with
      | nil => cases hmore; exact ⟨[], by rw [hbefore, List.append_nil]; rfl⟩
      | cons x more =>
        cases hmore
        rw [Endpoint.nested] at hbefore
        cases hp : e.payload with
        | none => rw [hp] at hbefore; cases before <;> cases hbefore
        | some t => rw [hp] at hbefore; exact ih t hp before _ more hbefore
  | children ty he ih =>
    rw [Ty.allEndpoints_children he]
    exact PostOrder.flatMap ih

/-- The futures and streams of a function, in post-order. -/
def occurrences (func : Function) : List Endpoint := func.types.flatMap Ty.allEndpoints

/-- The site that the occurrence `e` is to have as number `index`. -/
def siteOf (e : Endpoint) (index : Nat) : AsyncEndpointSite :=
  { kind := e.kind, ty := e.ty, index, payloadSites := (index - e.nested.length, index) }

/-- The sites of occurrences that are numbered from `start` on. -/
def sitesFrom (start : Nat) : List Endpoint → List AsyncEndpointSite
  | [] => []
  | e :: es => siteOf e start :: sitesFrom (start + 1) es

@[simp] theorem sitesFrom_length (start : Nat) (es : List Endpoint) :
    (sitesFrom start es).length = es.length := by
  induction es generalizing start with
  | nil => rfl
  | cons e es ih => exact congrArg (· + 1) (ih _)

theorem sitesFrom_append (start : Nat) (es es' : List Endpoint) :
    sitesFrom start (es ++ es') = sitesFrom start es ++ sitesFrom (start + es.length) es' := by
  induction es generalizing start with
  | nil => rfl
  | cons e es ih =>
    rw [List.cons_append, sitesFrom, sitesFrom, ih, List.cons_append, List.length_cons,
      Nat.add_comm es.length, Nat.add_assoc]

theorem sitesFrom_keys {start : Nat} {es : List Endpoint} {x : AsyncEndpointSite}
    (h : x ∈ sitesFrom start es) : (∃ e ∈ es, e.kind = x.kind ∧ e.ty = x.ty) ∧
      start ≤ x.index ∧ x.index < start + es.length := by
  induction es generalizing start with
  | nil => cases h
  | cons e es ih =>
    rcases List.mem_cons.mp h with rfl | h
    · exact ⟨⟨e, List.mem_cons_self, rfl, rfl⟩, Nat.le_refl _, Nat.lt_add_of_pos_right (by simp)⟩
    · obtain ⟨⟨e', he', hkey⟩, hle, hlt⟩ := ih h
      refine ⟨⟨e', List.mem_cons_of_mem _ he', hkey⟩, by omega, ?_⟩
      rw [List.length_cons]
      omega

/-- What `wit_parser` is taken to give for a function: it lists the futures and streams in
post-order, and each id refers to the definition it stands with. -/
structure Resolve.Describes (R : Resolve) (func : Function) : Prop where
  postOrder : R.findFuturesAndStreams func = (occurrences func).map (·.ty)
  types : ∀ e ∈ occurrences func, (R.types e.ty).endpoint? = some e

section
variable {R : Resolve} {func : Function}

/-- No type is in its own payload. -/
theorem Resolve.Describes.not_nested (hR : R.Describes func) {e e' : Endpoint}
    (he : e ∈ occurrences func) (he' : e' ∈ occurrences func) (hnested : e' ∈ e.nested) :
    e'.ty ≠ e.ty := by
  intro hty
  have hsame := hR.types e' he'
  rw [hty, hR.types e he] at hsame
  have hlt := Endpoint.sizeOf_nested hnested
  rw [Option.some.inj hsame] at hlt
  exact Nat.lt_irrefl _ hlt

/-- The sites as the first loop leaves them. -/
def initialSites (start : Nat) : List Endpoint → List AsyncEndpointSite
  | [] => []
  | e :: es => { siteOf e start with payloadSites := (start, start) } :: initialSites (start + 1) es

theorem initialSites_types (start : Nat) (es : List Endpoint) :
    (initialSites start es).map (·.ty) = es.map (·.ty) := by
  induction es generalizing start with
  | nil => rfl
  | cons e es ih => exact congrArg (e.ty :: ·) (ih _)

theorem first_loop {es : List Endpoint} (hR : ∀ e ∈ es, (R.types e.ty).endpoint? = some e)
    (start : Nat) : ((es.map (·.ty)).zipIdx start).mapM (fun (ty, index) => do
      return { kind := (← endpointOf R ty).kind, ty, index, payloadSites := (index, index) }) =
        (.ok (initialSites start es) : Except Panic (List AsyncEndpointSite)) := by
  induction es generalizing start with
  | nil => rfl
  | cons e es ih =>
    have hrest := ih (fun e' he' => hR e' (List.mem_cons_of_mem _ he')) (start + 1)
    rw [List.map_cons, List.zipIdx_cons, List.mapM_cons, hrest]
    dsimp only
    rw [endpointOf, hR e List.mem_cons_self]
    rfl

theorem second_loop (before : List Endpoint) {after : List Endpoint} (hpost : PostOrder (before ++ after))
    (hR : ∀ e ∈ after, (R.types e.ty).endpoint? = some e)
    (hpayload : ∀ e ∈ after, ∀ t, e.payload = some t →
      typeContainsCombination false true t = .ok false) :
    (initialSites before.length after).mapM (withPayloadSites R (initialSites 0 (before ++ after))) =
      .ok (sitesFrom before.length after) := by
  induction after generalizing before with
  | nil => rfl
  | cons e after ih =>
    have hrest := ih (before ++ [e]) (by rwa [List.append_assoc])
      (fun e' he' => hR e' (List.mem_cons_of_mem _ he'))
      (fun e' he' => hpayload e' (List.mem_cons_of_mem _ he'))
    rw [List.length_append, List.append_assoc] at hrest
    have hturn : withPayloadSites R (initialSites 0 (before ++ e :: after))
        { siteOf e before.length with payloadSites := (before.length, before.length) } =
        .ok (siteOf e before.length) := by
      unfold withPayloadSites
      rw [endpointOf, show (siteOf e before.length).ty = e.ty from rfl, hR e List.mem_cons_self]
      obtain ⟨front, hfront⟩ := hpost before e after rfl
      dsimp only [Bind.bind, Except.bind, Pure.pure, Except.pure]
      cases hp : e.payload with
      | none =>
        rw [siteOf, Endpoint.nested, hp]
        rfl
      | some t =>
        have hnested : e.nested = t.allEndpoints := by rw [Endpoint.nested, hp]; rfl
        have hslice : (((initialSites 0 (before ++ e :: after)).drop
            (before.length - t.allEndpoints.length)).take t.allEndpoints.length).map (·.ty) =
            t.allEndpoints.map (·.ty) := by
          rw [List.map_take, List.map_drop, initialSites_types, ← List.map_drop, ← List.map_take,
            hfront, hnested, List.length_append, Nat.add_sub_cancel, List.append_assoc,
            List.drop_left, List.take_left]
        have hle : t.allEndpoints.length ≤ before.length := by
          rw [hfront, hnested, List.length_append]
          exact Nat.le_add_left _ _
        dsimp only
        rw [find_ok (hpayload e List.mem_cons_self t hp)]
        change (if (t.allEndpoints.map (·.ty)).length ≤ before.length then _ else _) = _
        rw [List.length_map, if_pos hle]
        refine (if_pos hslice).trans ?_
        rw [siteOf, hnested]
    rw [initialSites, List.mapM_cons, hturn, show before.length + 1 = before.length + [e].length from rfl,
      show before ++ e :: after = before ++ ([e] ++ after) from rfl, hrest]
    rfl

/-- Planning goes through, and numbers the occurrences in their order. -/
theorem asyncEndpointSites_ok (hR : R.Describes func) (haccepted : Accepted func) :
    asyncEndpointSites R func = .ok (sitesFrom 0 (occurrences func)) := by
  have hpayload : ∀ e ∈ occurrences func, ∀ t, e.payload = some t →
      typeContainsCombination false true t = .ok false := fun e he => by
    obtain ⟨ty, hty, he⟩ := List.mem_flatMap.mp he
    exact payload_accepted (haccepted ty hty) e he
  rw [asyncEndpointSites, hR.postOrder, first_loop hR.types 0]
  exact second_loop [] (PostOrder.flatMap fun t _ => postOrder_allEndpoints t) hR.types
    hpayload

end

theorem mem_nested {es : List Endpoint} (hpost : PostOrder es) {e e' : Endpoint} (he : e ∈ es)
    (he' : e' ∈ e.nested) : e' ∈ es := by
  obtain ⟨before, after, rfl⟩ := List.append_of_mem he
  obtain ⟨front, rfl⟩ := hpost before e after rfl
  exact List.mem_append_left _ (List.mem_append_right _ he')

theorem postOrder_occurrences (func : Function) : PostOrder (occurrences func) :=
  PostOrder.flatMap fun t _ => postOrder_allEndpoints t

/-- The range of an occurrence holds the sites of what is in its payload, and no other. -/
theorem payloadSites_eq {es : List Endpoint} (hpost : PostOrder es) {i : Nat} {e : Endpoint}
    (he : es[i]? = some e) :
    payloadSites (sitesFrom 0 es) (siteOf e i) = sitesFrom (i - e.nested.length) e.nested := by
  obtain ⟨hi, he⟩ := List.getElem?_eq_some_iff.mp he
  have hsplit : es = es.take i ++ e :: es.drop (i + 1) := by
    rw [← he, List.getElem_cons_drop, List.take_append_drop]
  obtain ⟨front, hfront⟩ := hpost _ _ _ hsplit
  have hlen : front.length + e.nested.length = i := by
    rw [← List.length_append, ← hfront, List.length_take_of_le (Nat.le_of_lt hi)]
  rw [payloadSites, siteOf, ← hlen, Nat.add_sub_cancel, Nat.add_sub_cancel_left, hsplit, hfront,
    sitesFrom_append, sitesFrom_append, List.append_assoc, List.drop_left' (sitesFrom_length _ _),
    List.take_left' (sitesFrom_length _ _), Nat.zero_add]

theorem propagateTo_ok (owner : EndpointUse) {indices : List Nat} (uses : List EndpointUse)
    (h : ∀ i ∈ indices, i < uses.length) :
    ∃ uses', propagateTo owner indices uses = .ok uses' ∧ uses'.length = uses.length := by
  induction indices generalizing uses with
  | nil => exact ⟨uses, rfl, rfl⟩
  | cons i indices ih =>
    have hi := h i List.mem_cons_self
    obtain ⟨uses', hrun, hlen⟩ := ih (uses.set i (uses[i].propagate owner)) fun j hj => by
      rw [List.length_set]
      exact h j (List.mem_cons_of_mem _ hj)
    refine ⟨uses', ?_, hlen.trans (List.length_set ..)⟩
    rw [propagateTo, List.getElem?_eq_getElem hi]
    exact hrun

theorem propagateUses_ok {sites : List (AsyncEndpointSite × Nat)} (uses : List EndpointUse)
    (h : ∀ x ∈ sites, x.1.payloadSites.2 = x.2 ∧ x.2 < uses.length) :
    ∃ uses', propagateUses sites uses = .ok uses' := by
  induction sites generalizing uses with
  | nil => exact ⟨uses, rfl⟩
  | cons x sites ih =>
    obtain ⟨site, i⟩ := x
    obtain ⟨hend, hi⟩ := h _ List.mem_cons_self
    dsimp only at hend hi
    have hrange : ∀ j ∈ List.range' site.payloadSites.1
        (site.payloadSites.2 - site.payloadSites.1), j < uses.length := by
      intro j hj
      rw [List.mem_range'_1] at hj
      omega
    obtain ⟨uses₁, hpayload, hlen⟩ := propagateTo_ok uses[i] uses hrange
    obtain ⟨uses', hrest⟩ := ih uses₁ fun y hy => by
      rw [hlen]
      exact h y (List.mem_cons_of_mem _ hy)
    refine ⟨uses', ?_⟩
    rw [propagateUses, List.getElem?_eq_getElem hi]
    dsimp only
    rw [hpayload]
    exact hrest

theorem zipIdx_sitesFrom {start : Nat} {es : List Endpoint} :
    ∀ x ∈ (sitesFrom start es).zipIdx start, x.1.payloadSites.2 = x.2 ∧ x.2 < start + es.length := by
  induction es generalizing start with
  | nil => nofun
  | cons e es ih =>
    intro x hx
    rcases List.mem_cons.mp hx with rfl | hx
    · exact ⟨rfl, Nat.lt_add_of_pos_right (Nat.succ_pos _)⟩
    · obtain ⟨hend, hlt⟩ := ih x hx
      exact ⟨hend, by rw [List.length_cons]; omega⟩

/-- The uses of the endpoints reach those in their payloads. -/
theorem endpointUses_ok (es : List Endpoint) {s : AsyncFunctionState}
    (h : s.endpointUses.length = (sitesFrom 0 es).length) :
    ∃ uses, endpointUses (sitesFrom 0 es) s = .ok uses := by
  rw [endpointUses, if_pos h.symm]
  refine propagateUses_ok _ fun x hx => ?_
  obtain ⟨hend, hlt⟩ := zipIdx_sitesFrom x (List.mem_reverse.mp hx)
  exact ⟨hend, by rw [h, sitesFrom_length]; omega⟩

/-! ## Queries -/

/-- What the backend does on the instructions it acts on. -/
def act (onCall : WasmSignature → List Unit → BindgenState → Except Panic BindgenState)
    (s : BindgenState) : Instruction → Except Panic BindgenState
  | .callWasm _ sig => onCall sig (List.replicate sig.params.length ()) s
  | i => s.step i

section
variable {W : WitParser}
  {onCall : WasmSignature → List Unit → BindgenState → Except Panic BindgenState}

theorem bindgen_acts : Acts W (bindgen W onCall) (act onCall) := by
  have hops : ∀ {ops : List Unit} {n : Nat}, ops.length = n → ops = List.replicate n () :=
    fun h => List.eq_replicate_iff.mpr ⟨h, fun _ _ => rfl⟩
  have hstep : ∀ {i : Instruction} {ops : List Unit} {s : BindgenState},
      ops.length = i.operandsLen W → (bindgen W onCall).emit i ops s =
        (act onCall s i).map fun s => (List.replicate (i.resultsLen W) (), s) := by
    intro i ops s hlen
    rw [hops hlen]
    cases i <;> rfl
  refine ⟨fun {i ops s rs s'} hlen h _ => ?_, fun {i ops s rs s'} h hi => ?_,
    fun {i ops s} hlen h => ⟨?_, ?_⟩, ⟨(), rfl⟩, rfl, rfl, fun {t} h => ?_⟩
  · rw [hstep hlen] at h
    cases hact : act onCall s i with
    | error p => rw [hact] at h; cases h
    | ok s₁ => rw [hact] at h; cases h; rfl
  · have hidle : (bindgen W onCall).emit i ops s = .ok (List.replicate (i.resultsLen W) (), s) := by
      cases i <;> first | rfl | cases hi
    cases hidle.symm.trans h
    rfl
  · cases hi : i.acts with
    | true => rfl
    | false =>
      have hidle : (bindgen W onCall).emit i ops s =
          .ok (List.replicate (i.resultsLen W) (), s) := by
        cases i <;> first | rfl | cases hi
      cases hidle.symm.trans h
  · rw [hstep hlen] at h
    cases hact : act onCall s i with
    | error p => rw [hact] at h; cases h; rfl
    | ok s₁ => rw [hact] at h; cases h
  · cases t with
    | prim q => exact Ty.endpoints_children rfl
    | _ => cases h

theorem functionBindgen_acts : Acts W (functionBindgen W) (act fun _ _ s => .ok s) := bindgen_acts

end

inductive Direction where
  | lift | lower

namespace Direction

def instruction : Direction → Endpoint → Instruction
  | .lift => .liftEndpoint
  | .lower => .lowerEndpoint

def operation (s : BindgenState) : Direction → EndpointOperation
  | .lift => .lift
  | .lower => if s.asyncState.taskReturn = .generating then .lowerCommitted else .lower

/-- The helper that the code calls for an endpoint. -/
def helper (s : BindgenState) : Direction → Helper
  | .lift => if s.commitEndpoints then .commit else .lift
  | .lower => if s.asyncState.taskReturn = .generating then .lowerCommitted else .lower

end Direction

theorem act_endpoint (onCall : WasmSignature → List Unit → BindgenState → Except Panic BindgenState)
    (s : BindgenState) (d : Direction) (e : Endpoint) : act onCall s (d.instruction e) = (do
      let (site, asyncState) ← s.asyncState.nextSite e.kind e.ty (d.operation s)
      return { s with asyncState, calls := s.calls ++ [⟨d.helper s, site⟩] }) := by
  obtain ⟨kind, ty, payload⟩ := e
  cases d <;> cases kind <;> rfl

/-- The state in which a traversal that wrote `calls` leaves the plan. -/
def BindgenState.After (s : BindgenState) (next : Nat) (calls : List Call) (s' : BindgenState) :
    Prop :=
  ∃ uses, uses.length = s.asyncState.endpointUses.length ∧ s' = { s with
    calls := s.calls ++ calls
    asyncState := { s.asyncState with nextEndpoint := next, endpointUses := uses } }

theorem BindgenState.After.facts {s s' : BindgenState} {next : Nat} {calls : List Call}
    (h : s.After next calls s') : s'.calls = s.calls ++ calls ∧
      s'.commitEndpoints = s.commitEndpoints ∧
      s'.asyncState.taskReturn = s.asyncState.taskReturn ∧
      s'.asyncState.endpointSites = s.asyncState.endpointSites ∧
      s'.asyncState.endpointUses.length = s.asyncState.endpointUses.length := by
  obtain ⟨uses, hlen, rfl⟩ := h
  exact ⟨rfl, rfl, rfl, rfl, hlen⟩

theorem nextSite_at {s : AsyncFunctionState} {before after : List AsyncEndpointSite}
    {site : AsyncEndpointSite} (hsites : s.endpointSites.drop s.nextEndpoint = before ++ site :: after)
    (hbefore : ∀ x ∈ before, ¬(x.kind = site.kind ∧ x.ty = site.ty))
    (huses : s.endpointUses.length = s.endpointSites.length) (operation : EndpointOperation) :
    ∃ uses, uses.length = s.endpointUses.length ∧ s.nextSite site.kind site.ty operation =
      .ok (site, { s with nextEndpoint := s.nextEndpoint + before.length + 1, endpointUses := uses }) := by
  have hfind : (s.endpointSites.drop s.nextEndpoint).findIdx?
      (fun x => x.kind = site.kind ∧ x.ty = site.ty) = some before.length := by
    rw [hsites, List.findIdx?_append, List.findIdx?_eq_none_iff.mpr fun x hx => by simpa using hbefore x hx,
      List.findIdx?_cons]
    simp
  have hsite : s.endpointSites[s.nextEndpoint + before.length]? = some site := by
    rw [← List.getElem?_drop, hsites, List.getElem?_append_right (Nat.le_refl _), Nat.sub_self]
    rfl
  have hlt : s.nextEndpoint + before.length < s.endpointUses.length := by
    rw [huses]
    exact (List.getElem?_eq_some_iff.mp hsite).1
  refine ⟨s.endpointUses.set (s.nextEndpoint + before.length)
    (s.endpointUses[s.nextEndpoint + before.length].mark operation), List.length_set .., ?_⟩
  unfold AsyncFunctionState.nextSite
  rw [hfind]
  dsimp only
  rw [hsite, List.getElem?_eq_getElem hlt]

/-- The futures and streams that lie outside of any payload, each after those in its own. -/
abbrev spread (es : List Endpoint) : List Endpoint := es.flatMap fun e => e.nested ++ [e]

theorem spread_cons (e : Endpoint) (es : List Endpoint) :
    spread (e :: es) = e.nested ++ [e] ++ spread es := List.flatMap_cons

theorem spread_append (es es' : List Endpoint) : spread (es ++ es') = spread es ++ spread es' :=
  List.flatMap_append

theorem spread_types (types : List Ty) :
    types.flatMap Ty.allEndpoints = spread (types.flatMap Ty.endpoints) := by
  rw [spread, List.flatMap_assoc]
  exact List.flatMap_congr fun t _ => Ty.allEndpoints_eq t

/-- The sites of the futures and streams outside of any payload, where the sites with those in
the payloads are numbered from `start` on. -/
def located (start : Nat) : List Endpoint → List AsyncEndpointSite
  | [] => []
  | e :: es => siteOf e (start + e.nested.length) :: located (start + e.nested.length + 1) es

theorem located_append (start : Nat) (es es' : List Endpoint) :
    located start (es ++ es') = located start es ++ located (start + (spread es).length) es' := by
  induction es generalizing start with
  | nil => rfl
  | cons e es ih =>
    have hlen : start + e.nested.length + 1 + (spread es).length =
        start + (spread (e :: es)).length := by
      rw [spread_cons, List.length_append, List.length_append, List.length_singleton]
      omega
    rw [List.cons_append, located, located, ih, List.cons_append, hlen]

theorem le_located {start : Nat} {es : List Endpoint} :
    ∀ x ∈ located start es, start ≤ x.index := by
  induction es generalizing start with
  | nil => nofun
  | cons e es ih =>
    intro x hx
    rcases List.mem_cons.mp hx with rfl | hx
    · exact Nat.le_add_right _ _
    · exact Nat.le_trans (by omega) (ih x hx)

theorem located_increasing (start : Nat) (es : List Endpoint) :
    ((located start es).map (·.index)).Pairwise (· < ·) := by
  induction es generalizing start with
  | nil => exact .nil
  | cons e es ih =>
    refine List.pairwise_cons.mpr ⟨fun i hi => ?_, ih _⟩
    obtain ⟨x, hx, rfl⟩ := List.mem_map.mp hi
    exact Nat.lt_of_lt_of_le (Nat.lt_succ_self _) (le_located x hx)

section
variable (onCall : WasmSignature → List Unit → BindgenState → Except Panic BindgenState)
  (d : Direction)

/-- A query finds its own site behind the cursor, past the sites in its payload and past
others of different types. -/
theorem ask_one {s : BindgenState} (skip : List AsyncEndpointSite) {rest : List AsyncEndpointSite} {start : Nat} {e : Endpoint}
    (hsites : s.asyncState.endpointSites.drop s.asyncState.nextEndpoint =
      skip ++ (sitesFrom start (e.nested ++ [e]) ++ rest))
    (hskip : ∀ x ∈ skip, ¬(x.kind = e.kind ∧ x.ty = e.ty))
    (hnested : ∀ e' ∈ e.nested, e'.ty ≠ e.ty)
    (huses : s.asyncState.endpointUses.length = s.asyncState.endpointSites.length) :
    ∃ s', act onCall s (d.instruction e) = .ok s' ∧
      s.After (s.asyncState.nextEndpoint + skip.length + e.nested.length + 1)
        [⟨d.helper s, siteOf e (start + e.nested.length)⟩] s' := by
  rw [sitesFrom_append, sitesFrom, sitesFrom, List.append_assoc, ← List.append_assoc] at hsites
  have hbefore : ∀ x ∈ skip ++ sitesFrom start e.nested, ¬(x.kind = e.kind ∧ x.ty = e.ty) := by
    intro x hx
    rcases List.mem_append.mp hx with hx | hx
    · exact hskip x hx
    · obtain ⟨⟨e', he', -, hty⟩, -⟩ := sitesFrom_keys hx
      exact fun hkey => hnested e' he' (hty.trans hkey.2)
  obtain ⟨uses, hlen, hnext⟩ := nextSite_at hsites hbefore huses (d.operation s)
  refine ⟨_, (act_endpoint onCall s d e).trans ?_, uses, hlen, rfl⟩
  change (s.asyncState.nextSite (siteOf e (start + e.nested.length)).kind
    (siteOf e (start + e.nested.length)).ty _ >>= _) = _
  rw [hnext, List.length_append, sitesFrom_length, ← Nat.add_assoc]
  rfl

/-- Queries in the order of the sites are each answered with their own. -/
theorem ask_all {s : BindgenState} {rest : List AsyncEndpointSite} {start : Nat} {es : List Endpoint}
    (hsites : s.asyncState.endpointSites.drop s.asyncState.nextEndpoint =
      sitesFrom start (spread es) ++ rest)
    (hnested : ∀ e ∈ es, ∀ e' ∈ e.nested, e'.ty ≠ e.ty)
    (huses : s.asyncState.endpointUses.length = s.asyncState.endpointSites.length) :
    ∃ s', (es.map d.instruction).foldlM (act onCall) s = .ok s' ∧
      s.After (s.asyncState.nextEndpoint + (spread es).length)
        ((located start es).map fun site => ⟨d.helper s, site⟩) s' := by
  induction es generalizing s start with
  | nil => exact ⟨s, rfl, s.asyncState.endpointUses, rfl, by rw [located, List.map_nil, List.append_nil]; rfl⟩
  | cons e es ih =>
    rw [spread_cons, sitesFrom_append, List.append_assoc] at hsites
    obtain ⟨s₁, h₁, uses₁, hlen₁, rfl⟩ := ask_one onCall d [] hsites nofun
      (hnested e List.mem_cons_self) huses
    obtain ⟨s₂, h₂, uses₂, hlen₂, rfl⟩ := ih
      (s := { s with
        calls := s.calls ++ [⟨d.helper s, siteOf e (start + e.nested.length)⟩]
        asyncState := { s.asyncState with
          nextEndpoint := s.asyncState.nextEndpoint + 0 + e.nested.length + 1
          endpointUses := uses₁ } })
      (by
        have hdrop := congrArg (List.drop (e.nested ++ [e]).length) hsites
        rw [List.drop_drop, List.drop_left' (sitesFrom_length _ _)] at hdrop
        rw [← hdrop]
        congr 1
        rw [List.length_append]
        rfl)
      (fun e' he' => hnested e' (List.mem_cons_of_mem _ he')) (hlen₁.trans huses)
    refine ⟨_, ?_, uses₂, hlen₂.trans hlen₁, rfl⟩
    rw [List.map_cons, List.foldlM_cons, h₁]
    refine h₂.trans (congrArg Except.ok ?_)
    have hnext : s.asyncState.nextEndpoint + 0 + e.nested.length + 1 + (spread es).length =
        s.asyncState.nextEndpoint + (spread (e :: es)).length := by
      rw [spread_cons, List.length_append, List.length_append, List.length_singleton]
      omega
    dsimp only
    rw [hnext, List.append_assoc, List.length_append, List.length_singleton]
    rfl

end

/-! ## Traversals -/

/-- The cursor is in front of the sites of `es` and of what is in their payloads. -/
structure AsyncFunctionState.At (s : AsyncFunctionState) (start : Nat) (es : List Endpoint) :
    Prop where
  sites : ∃ rest, s.endpointSites.drop s.nextEndpoint = sitesFrom start (spread es) ++ rest
  nested : ∀ e ∈ es, ∀ e' ∈ e.nested, e'.ty ≠ e.ty
  uses : s.endpointUses.length = s.endpointSites.length

/-- The state of the plan with its cursor moved. -/
def AsyncFunctionState.Moved (s : AsyncFunctionState) (next : Nat) (s' : AsyncFunctionState) : Prop :=
  ∃ uses, uses.length = s.endpointUses.length ∧
    s' = { s with nextEndpoint := next, endpointUses := uses }

theorem BindgenState.After.moved {s s' : BindgenState} {next : Nat} {calls : List Call}
    (h : s.After next calls s') : s.asyncState.Moved next s'.asyncState := by
  obtain ⟨uses, hlen, rfl⟩ := h
  exact ⟨uses, hlen, rfl⟩

theorem AsyncFunctionState.At.moved {s s' : AsyncFunctionState} {start : Nat} {es es' : List Endpoint}
    (h : s.At start (es ++ es')) (hmoved : s.Moved (s.nextEndpoint + (spread es).length) s') :
    s'.At (start + (spread es).length) es' := by
  obtain ⟨uses, hlen, rfl⟩ := hmoved
  obtain ⟨rest, hsites⟩ := h.sites
  refine ⟨⟨rest, ?_⟩, fun e he => h.nested e (List.mem_append_right _ he), hlen.trans h.uses⟩
  have hdrop := congrArg (List.drop (spread es).length) hsites
  rw [spread_append, sitesFrom_append, List.append_assoc, List.drop_drop,
    List.drop_left' (sitesFrom_length _ _)] at hdrop
  exact hdrop

theorem AsyncFunctionState.At.left {s : AsyncFunctionState} {start : Nat} {es es' : List Endpoint}
    (h : s.At start (es ++ es')) : s.At start es := by
  obtain ⟨rest, hsites⟩ := h.sites
  rw [spread_append, sitesFrom_append, List.append_assoc] at hsites
  exact ⟨⟨_, hsites⟩, fun e he => h.nested e (List.mem_append_left _ he), h.uses⟩

theorem AsyncFunctionState.Moved.append {s s₁ s₂ : AsyncFunctionState} {es es' : List Endpoint}
    (h : s.Moved (s.nextEndpoint + (spread es).length) s₁)
    (h' : s₁.Moved (s₁.nextEndpoint + (spread es').length) s₂) :
    s.Moved (s.nextEndpoint + (spread (es ++ es')).length) s₂ := by
  obtain ⟨uses₁, hlen₁, rfl⟩ := h
  obtain ⟨uses₂, hlen₂, rfl⟩ := h'
  refine ⟨uses₂, hlen₂.trans hlen₁, ?_⟩
  rw [spread_append, List.length_append, ← Nat.add_assoc]

/-- The calls to one helper of each of the futures and streams. -/
def calls (helper : Helper) (start : Nat) (es : List Endpoint) : List Call :=
  (located start es).map fun site => ⟨helper, site⟩

theorem calls_append (helper : Helper) (start : Nat) (es es' : List Endpoint) :
    calls helper start (es ++ es') =
      calls helper start es ++ calls helper (start + (spread es).length) es' := by
  rw [calls, located_append, List.map_append]
  rfl

/-- A traversal does not fail on the plan, and where it goes through it has written the calls
expected of it, and each site still has its uses. -/
def InStep (sites : List AsyncEndpointSite) (expected : List Call) : Written → Prop :=
  Ends (· ≠ .backend) fun (calls, state) =>
    calls = expected ∧ state.endpointSites = sites ∧ state.endpointUses.length = sites.length

section
variable {W : WitParser} {p : Nat} (hW : W.Lawful p)
  {onCall : WasmSignature → List Unit → BindgenState → Except Panic BindgenState}

theorem asks_types (f : Endpoint → Instruction) (types : List Ty) :
    types.flatMap (Ty.asks f) = (types.flatMap Ty.endpoints).map f := List.map_flatMap.symm

/-- What the instructions that the backend acts on do to it, a run of the generator does. -/
theorem run_traces {α : Type} {R : α → Prop} {is : List Instruction} {g : Gen (bindgen W onCall) α}
    (hg : Traces (act onCall) R is g) {s : GenState (bindgen W onCall)} {Q : BindgenState → Prop}
    (h : Ends (· ≠ .backend) Q (is.foldlM (act onCall) s.bindgen)) :
    Ends (· ≠ .backend) (fun q => Q q.2.bindgen) (g s) := by
  cases hgs : g s with
  | error e => exact fun he => h.of_error ((hg s).2 (he ▸ hgs)) rfl
  | ok q => exact h.of_ok ((hg s).1 q.1 q.2 hgs).2

theorem asks_ends (d : Direction) {s : BindgenState} {start : Nat} {es : List Endpoint}
    (hs : s.asyncState.At start es) : Ends (· ≠ .backend)
      (s.After (s.asyncState.nextEndpoint + (spread es).length) (calls (d.helper s) start es))
      ((es.map d.instruction).foldlM (act onCall) s) := by
  obtain ⟨rest, hsites⟩ := hs.sites
  obtain ⟨s', hrun, hafter⟩ := ask_all onCall d hsites hs.nested hs.uses
  rw [hrun]
  exact hafter

theorem run_asks {α : Type} {g : Gen (bindgen W onCall) α} {d : Direction} {es : List Endpoint}
    (hg : Asks (act onCall) (es.map d.instruction) g) {s : GenState (bindgen W onCall)} {start : Nat}
    (hs : s.bindgen.asyncState.At start es) : Ends (· ≠ .backend) (fun q =>
      q.2.bindgen.calls = s.bindgen.calls ++ calls (d.helper s.bindgen) start es ∧
        s.bindgen.asyncState.Moved (s.bindgen.asyncState.nextEndpoint + (spread es).length)
          q.2.bindgen.asyncState) (g s) :=
  (run_traces hg (asks_ends d hs)).mono fun _ hq => ⟨hq.facts.1, hq.moved⟩

/-- A new generator on the plan in state `s`. -/
abbrev generator (W : WitParser) (s : AsyncFunctionState) (commit : Bool) :
    GenState (functionBindgen W) :=
  GenState.new (B := functionBindgen W) ⟨s, commit, []⟩

/-- A new generator with a value to lower. -/
abbrev lowering (W : WitParser) (f : BindgenState) : GenState (functionBindgen W) :=
  { bindgen := f, stack := [()], returnPointer := none, realloc := some (.export_ "cabi_realloc") }

include hW

theorem deallocateWithState_inStep {types : List Ty} (hapart : ∀ t ∈ types, t.Apart) (commit : Bool)
    (operands : List Unit) (indirect : Bool) {sites : List AsyncEndpointSite} {start : Nat}
    (hsites : (AsyncFunctionState.fromSites sites).At start (types.flatMap Ty.endpoints)) :
    InStep sites (calls (if commit then .commit else .lift) start (types.flatMap Ty.endpoints))
      (deallocateWithState W commit types operands indirect sites) := by
  have hg := deallocateInTypes (W := W) functionBindgen_acts hW hapart
    operands indirect
  rw [asks_types] at hg
  refine (run_asks (d := .lift) hg (s := generator W (.fromSites sites) commit) hsites).bind ?_
  rintro q ⟨hcalls, uses, hlen, hstate⟩
  refine ⟨hcalls, ?_⟩
  rw [hstate]
  exact ⟨rfl, hlen.trans List.length_replicate⟩

theorem liftFromMemory_inStep {ty : Ty} (hapart : ty.Apart) {s : AsyncFunctionState} {start : Nat}
    (hs : s.At start ty.endpoints) :
    InStep s.endpointSites (calls .lift start ty.endpoints) (liftFromMemory W ty s) := by
  have hread := (lifting_traced (W := W) functionBindgen_acts hW ty
    hapart).2 () default
  have hpop : ∀ q : GenState (functionBindgen W),
      Ends (· ≠ .backend) (fun r => r.2.bindgen = q.bindgen) (Generator.pop q) := by
    intro q
    unfold Generator.pop
    split
    · rfl
    · nofun
  refine Ends.bind (P := fun r => r.2.calls = calls .lift start ty.endpoints ∧
    s.Moved (s.nextEndpoint + (spread ty.endpoints).length) r.2.asyncState) ?_ ?_
  · refine (run_asks (d := .lift) hread (s := generator W s false) hs).bind fun q hq =>
      (hpop q.2).bind fun r hr => ?_
    rw [Ends_pure, hr]
    exact hq
  · rintro r ⟨hcalls, uses, hlen, hstate⟩
    refine ⟨hcalls, ?_⟩
    rw [hstate]
    exact ⟨rfl, hlen.trans hs.uses⟩

omit hW in
/-- Until an async function has been called, its values are lowered without committing to it. -/
theorem lowering_asks {g : Gen (functionBindgen W) Unit} {es : List Endpoint}
    (hg : Asks (act fun _ _ s => .ok s) (es.map .lowerEndpoint) g) {f : BindgenState} {start : Nat}
    (hs : f.asyncState.At start es) (hreturn : f.asyncState.taskReturn = .none) :
    Ends (· ≠ .backend) (fun q => q.2.bindgen.calls = f.calls ++ calls .lower start es ∧
      f.asyncState.Moved (f.asyncState.nextEndpoint + (spread es).length) q.2.bindgen.asyncState)
      (g (lowering W f)) := by
  have hrun := run_asks (d := .lower) hg (s := lowering W f) hs
  rwa [Direction.helper, if_neg (by rw [hreturn]; nofun)] at hrun

/-- The parameters lowered one after the other. -/
abbrev Lowers (start : Nat) (es : List Endpoint) (s : AsyncFunctionState) (before : List Call)
    (after : List Call) (s' : AsyncFunctionState) : Prop :=
  after = before ++ calls .lower start es ∧ s.Moved (s.nextEndpoint + (spread es).length) s'

theorem lowerToMemory_inStep {ty : Ty} (hapart : ty.Apart) {s : AsyncFunctionState} {start : Nat}
    (hs : s.At start ty.endpoints) (hreturn : s.taskReturn = .none) : Ends (· ≠ .backend)
      (fun r => Lowers start ty.endpoints s [] r.1 r.2) (lowerToMemory W ty s) :=
  Ends.bind (P := fun f : BindgenState => Lowers start ty.endpoints s [] f.calls f.asyncState)
    ((lowering_asks (f := ⟨s, false, []⟩) ((lowering_traced (W := W) functionBindgen_acts hW ty
      hapart).2 () default) hs hreturn).bind fun ⟨_, _⟩ hq => hq) fun _ hf => hf

theorem lowerAllToMemory_inStep {types : List Ty} (hapart : ∀ t ∈ types, t.Apart)
    {s : AsyncFunctionState} {start : Nat} (hs : s.At start (types.flatMap Ty.endpoints))
    (hreturn : s.taskReturn = .none) : Ends (· ≠ .backend) (fun r =>
      Lowers start (types.flatMap Ty.endpoints) s [] r.1 r.2) (lowerAllToMemory W types s) := by
  induction types generalizing s start with
  | nil => exact ⟨rfl, s.endpointUses, rfl, rfl⟩
  | cons t types ih =>
    rw [List.flatMap_cons] at hs ⊢
    refine (lowerToMemory_inStep hW (hapart t List.mem_cons_self) hs.left hreturn).bind ?_
    rintro r ⟨hcalls, hmoved⟩
    have hreturn' : r.2.taskReturn = .none := by
      obtain ⟨_, -, h⟩ := hmoved
      rw [h]
      exact hreturn
    refine (ih (fun u hu => hapart u (List.mem_cons_of_mem _ hu)) (hs.moved hmoved)
      hreturn').bind ?_
    rintro q ⟨hcalls', hmoved'⟩
    refine ⟨?_, hmoved.append hmoved'⟩
    rw [hcalls, hcalls', calls_append]
    rfl

theorem lowerAllFlat_inStep {types : List Ty} (hapart : ∀ t ∈ types, t.Apart) {f : BindgenState}
    {start : Nat} (hs : f.asyncState.At start (types.flatMap Ty.endpoints))
    (hreturn : f.asyncState.taskReturn = .none) : Ends (· ≠ .backend) (fun r =>
      Lowers start (types.flatMap Ty.endpoints) f.asyncState f.calls r.2.calls r.2.asyncState)
      (lowerAllFlat W types f) := by
  induction types generalizing f start with
  | nil => exact ⟨(List.append_nil _).symm, f.asyncState.endpointUses, rfl, rfl⟩
  | cons t types ih =>
    rw [List.flatMap_cons] at hs ⊢
    refine Ends.bind (P := fun r => Lowers start t.endpoints f.asyncState f.calls r.2.calls
      r.2.asyncState) ?_ ?_
    · exact (lowering_asks ((lowering_traced (W := W)
        functionBindgen_acts hW t (hapart t List.mem_cons_self)).1)
          hs.left hreturn).bind fun q hq => hq
    · rintro r ⟨hcalls, hmoved⟩
      have hreturn' : r.2.asyncState.taskReturn = .none := by
        obtain ⟨_, -, h⟩ := hmoved
        rw [h]
        exact hreturn
      refine (ih (fun u hu => hapart u (List.mem_cons_of_mem _ hu)) (hs.moved hmoved)
        hreturn').bind ?_
      rintro q ⟨hcalls', hmoved'⟩
      refine ⟨?_, hmoved.append hmoved'⟩
      rw [hcalls', hcalls, calls_append, List.append_assoc]

theorem lowerParams_inStep {func : Function} (hapart : ∀ t ∈ func.paramTypes, t.Apart)
    {sites : List AsyncEndpointSite} {start : Nat}
    (hs : (AsyncFunctionState.fromSites sites).At start (func.paramTypes.flatMap Ty.endpoints))
    (sig : WasmSignature) : Ends (· ≠ .backend) (fun r => Lowers start
      (func.paramTypes.flatMap Ty.endpoints) (.fromSites sites) [] r.calls r.asyncState)
      (lowerParams W sites func sig) := by
  have htypes : indirectTypes W func.paramTypes = func.paramTypes := by
    unfold indirectTypes
    split
    · exact Eq.symm ‹_›
    · exact Eq.symm ‹_›
    · exact hW.fieldOffsets_types _
  unfold lowerParams
  split
  · rw [htypes]
    exact (lowerAllToMemory_inStep hW hapart hs rfl).bind fun r hr => hr
  · exact (lowerAllFlat_inStep hW (f := ⟨.fromSites sites, false, []⟩) hapart hs rfl).bind
      fun r hr => hr

omit hW in
@[simp] theorem mergeUses_length (uses others : List EndpointUse) :
    (mergeUses uses others).length = uses.length := by
  induction uses generalizing others with
  | nil => rfl
  | cons u uses ih =>
    cases others with
    | nil => rfl
    | cons o others => exact congrArg (· + 1) (ih others)

omit hW in
/-- Noting uses, or how far a task return is, leaves the sites where they are. -/
theorem AsyncFunctionState.At.merged {s : AsyncFunctionState} {start : Nat} {es : List Endpoint}
    (h : s.At start es) {uses : List EndpointUse} (huses : uses.length = s.endpointUses.length)
    (taskReturn : AsyncTaskReturnState) : AsyncFunctionState.At
      { s with taskReturn := taskReturn, endpointUses := uses } start es :=
  ⟨h.sites, h.nested, huses.trans h.uses⟩

/-- What a traversal leaves in step: the calls expected, and the sites with their uses. -/
abbrev Left (sites : List AsyncEndpointSite) (expected : List Call) (f : BindgenState) : Prop :=
  f.calls = expected ∧ f.asyncState.endpointSites = sites ∧
    f.asyncState.endpointUses.length = sites.length

/-- An export calls its function between lifting the arguments and lowering the result, which an
async function is then committed to. -/
theorem export_inStep {func : Function} (hparams : ∀ t ∈ func.paramTypes, t.Apart)
    (hresult : ∀ t ∈ func.result, t.Apart) {sites : List AsyncEndpointSite} {start : Nat}
    (hs : (AsyncFunctionState.fromSites sites).At start (func.types.flatMap Ty.endpoints))
    (async_ : Bool) : InStep sites
      (calls .lift start (func.paramTypes.flatMap Ty.endpoints) ++
        calls (if async_ then .lowerCommitted else .lower)
          (start + (func.paramTypes.flatMap Ty.allEndpoints).length)
          (func.result.toList.flatMap Ty.endpoints)) (export_ W sites func async_) := by
  obtain ⟨last, hlast, hg⟩ := call_export (W := W) functionBindgen_acts hW
    hparams hresult (show (if async_ then AbiVariant.guestExportAsync else .guestExport) =
      .guestExport ∨ _ by cases async_ <;> simp) async_
  rw [Function.types, List.flatMap_append] at hs
  rw [asks_types, asks_types] at hg
  rw [spread_types]
  refine Ends.bind (run_traces hg (s := generator W (.fromSites sites) false) (Q := Left sites _) ?_)
    fun q hq => hq
  rw [List.foldlM_append]
  refine (asks_ends .lift hs.left).bind fun s₁ h₁ => ?_
  obtain ⟨hcalls₁, -, hreturn₁, hsites₁, hlen₁⟩ := h₁.facts
  have hs₁ := hs.moved h₁.moved
  rw [List.foldlM_cons]
  rcases hlast with ⟨rfl, name, tys, rfl⟩ | ⟨rfl, rfl⟩
  · -- an async function is generating its task return while the result is lowered
    have hcall : act (fun _ _ s => .ok s) s₁ (.callInterface func true) = .ok { s₁ with
        asyncState := { s₁.asyncState with taskReturn := .generating } } := if_pos hreturn₁
    rw [hcall]
    refine Ends.bind (P := (· = _)) rfl ?_
    rintro s₂ rfl
    rw [List.foldlM_append]
    refine (asks_ends .lower (hs₁.merged rfl .generating)).bind fun s₃ h₃ => ?_
    obtain ⟨hcalls₃, -, hreturn₃, hsites₃, hlen₃⟩ := h₃.facts
    have hend : act (fun _ _ s => .ok s) s₃ (.asyncTaskReturn name tys) = .ok { s₃ with
        asyncState := { s₃.asyncState with taskReturn := .emitted } } := if_pos hreturn₃
    rw [List.foldlM_cons, hend]
    exact ⟨hcalls₃.trans (congrArg (· ++ _) hcalls₁), hsites₃.trans hsites₁,
      hlen₃.trans (hlen₁.trans List.length_replicate)⟩
  · refine Ends.bind (P := (· = s₁)) rfl ?_
    rintro s₂ rfl
    rw [List.append_nil]
    refine (asks_ends .lower hs₁).mono fun s₃ h₃ => ?_
    obtain ⟨hcalls₃, -, -, hsites₃, hlen₃⟩ := h₃.facts
    rw [Direction.helper, if_neg (by rw [hreturn₁]; nofun), hcalls₁] at hcalls₃
    exact ⟨hcalls₃, hsites₃.trans hsites₁, hlen₃.trans (hlen₁.trans List.length_replicate)⟩

omit hW in
theorem AsyncFunctionState.At.eq_nil {start : Nat} {es : List Endpoint}
    (h : (AsyncFunctionState.fromSites []).At start es) : es = [] := by
  obtain ⟨rest, hrest⟩ := h.sites
  cases es with
  | nil => rfl
  | cons e es => simp [AsyncFunctionState.fromSites, sitesFrom_append, sitesFrom] at hrest

/-- What is committed to is found from the first site on, with the cursor left where it is. -/
theorem commit_inStep {types : List Ty} (hapart : ∀ t ∈ types, t.Apart) (sig : WasmSignature)
    (operands : List Unit) {s : BindgenState} {start : Nat}
    (hs : (AsyncFunctionState.fromSites s.asyncState.endpointSites).At start
      (types.flatMap Ty.endpoints)) :
    Ends (· ≠ .backend) (fun s' => ∃ uses, uses.length = s.asyncState.endpointUses.length ∧
      s' = { s with
        asyncState := { s.asyncState with endpointUses := uses }
        calls := s.calls ++ calls .commit start (types.flatMap Ty.endpoints) })
      (commitSyncImportArguments W types sig operands s) := by
  have hg := deallocateInTypes (W := W) functionBindgen_acts hW hapart (operands.take
    (if sig.indirectParams then 1 else operands.length - (if sig.retptr then 1 else 0)))
    sig.indirectParams
  rw [asks_types] at hg
  refine (run_asks (d := .lift) hg (s := GenState.new { s with
    asyncState := .fromSites s.asyncState.endpointSites, commitEndpoints := true }) hs).bind ?_
  rintro q ⟨hcalls, -⟩
  refine ⟨mergeUses _ q.2.bindgen.asyncState.endpointUses, mergeUses_length _ _, ?_⟩
  rw [hcalls]
  rfl

/-- An import that is not async lowers its arguments, commits to them once it has made its call,
and lifts its result. -/
theorem importSync_inStep {func : Function} (hparams : ∀ t ∈ func.paramTypes, t.Apart)
    (hresult : ∀ t ∈ func.result, t.Apart) {sites : List AsyncEndpointSite} {start : Nat}
    (hs : (AsyncFunctionState.fromSites sites).At start (func.types.flatMap Ty.endpoints)) :
    InStep sites (calls .lower start (func.paramTypes.flatMap Ty.endpoints) ++
        calls .commit start (func.paramTypes.flatMap Ty.endpoints) ++
        calls .lift (start + (func.paramTypes.flatMap Ty.allEndpoints).length)
          (func.result.toList.flatMap Ty.endpoints)) (importSync W sites func) := by
  have hg := fun onCall => call_import (B := bindgen W onCall) bindgen_acts hW hparams hresult
  simp only [asks_types] at hg
  rw [Function.types, List.flatMap_append] at hs
  rw [spread_types]
  refine Ends.bind (run_traces (hg _) (s := GenState.new ⟨.fromSites sites, false, []⟩)
    (Q := Left sites _) ?_) fun q hq => hq
  rw [List.foldlM_append]
  refine (asks_ends .lower hs.left).bind fun s₁ h₁ => ?_
  obtain ⟨hcalls₁, hcommit₁, hreturn₁, hsites₁, hlen₁⟩ := h₁.facts
  have hs₁ := hs.moved h₁.moved
  refine Ends.bind (P := fun f => ∃ uses, uses.length = s₁.asyncState.endpointUses.length ∧
    f = { s₁ with
      asyncState := { s₁.asyncState with endpointUses := uses }
      calls := s₁.calls ++ calls .commit start (func.paramTypes.flatMap Ty.endpoints) }) ?_ ?_
  · cases sites with
    | nil =>
      refine ⟨s₁.asyncState.endpointUses, rfl, ?_⟩
      rw [hs.left.eq_nil, calls, located, List.map_nil, List.append_nil]
    | cons site sites =>
      exact commit_inStep hW hparams _ _ (by rw [hsites₁]; exact hs.left)
  · rintro s₂ ⟨uses, hlen, rfl⟩
    refine (asks_ends .lift (hs₁.merged hlen s₁.asyncState.taskReturn)).mono fun s₃ h₃ => ?_
    obtain ⟨hcalls₃, -, -, hsites₃, hlen₃⟩ := h₃.facts
    refine ⟨?_, hsites₃.trans hsites₁, hlen₃.trans (hlen.trans (hlen₁.trans List.length_replicate))⟩
    rw [hcalls₃, hcalls₁, Direction.helper, hcommit₁]
    rfl

/-- A body of `generate_async_import_function` in step: the arguments are lowered, committed to and
rejected from the first site on, and the result is dropped and lifted from where they end. -/
structure AsyncImportBody.InStep (sites : List AsyncEndpointSite) (func : Function)
    (body : AsyncImportBody) : Prop where
  lowered : body.lowered = calls .lower 0 (func.paramTypes.flatMap Ty.endpoints)
  commitArguments : body.commitArguments = calls .commit 0 (func.paramTypes.flatMap Ty.endpoints)
  rejectArguments : body.rejectArguments = calls .lift 0 (func.paramTypes.flatMap Ty.endpoints)
  dropReturnedResult : body.dropReturnedResult = calls .lift
    (func.paramTypes.flatMap Ty.allEndpoints).length (func.result.toList.flatMap Ty.endpoints)
  lifted : body.lifted = calls .lift
    (func.paramTypes.flatMap Ty.allEndpoints).length (func.result.toList.flatMap Ty.endpoints)
  state : body.state.endpointSites = sites ∧ body.state.endpointUses.length = sites.length

theorem generateAsyncImportFunction_inStep {func : Function}
    (hparams : ∀ t ∈ func.paramTypes, t.Apart) (hresult : ∀ t ∈ func.result, t.Apart)
    {sites : List AsyncEndpointSite}
    (hs : (AsyncFunctionState.fromSites sites).At 0 (func.types.flatMap Ty.endpoints))
    (hdrop : ∀ t ∈ func.result, InStep sites (calls .lift
      (func.paramTypes.flatMap Ty.allEndpoints).length t.endpoints) (dropReturnedResult W sites t))
    (sig : WasmSignature) :
    Ends (· ≠ .backend) (·.InStep sites func) (generateAsyncImportFunction W sites func sig) := by
  rw [Function.types, List.flatMap_append] at hs
  unfold generateAsyncImportFunction
  refine (lowerParams_inStep hW hparams hs.left sig).bind fun params hlower => ?_
  obtain ⟨hlowered, hmoved⟩ := hlower
  have hfree := fun commit => deallocateWithState_inStep hW hparams commit params.operands
    sig.indirectParams hs.left
  refine (hfree true).bind fun committed hcommit => (hfree false).bind fun rejected hreject => ?_
  have hlen : params.asyncState.endpointUses.length = sites.length := by
    obtain ⟨uses, hlen, hstate⟩ := hmoved
    rw [hstate]
    exact hlen.trans List.length_replicate
  have hsites : params.asyncState.endpointSites = sites := by
    obtain ⟨uses, -, hstate⟩ := hmoved
    rw [hstate]
    rfl
  have hat := hs.moved hmoved
  rw [Nat.zero_add, ← spread_types] at hat
  cases hr : func.result with
  | none =>
    refine ⟨hlowered, hcommit.1, hreject.1, ?_, ?_, hsites, ?_⟩
    · rw [hr]; rfl
    · rw [hr]; rfl
    · simpa using hlen
  | some t =>
    have hmem : t ∈ func.result := by rw [hr]; rfl
    rw [hr, Option.toList_some, List.flatMap_singleton] at hat
    refine (hdrop t hmem).bind fun dropped hdropped => ?_
    have huses : (mergeUses (mergeUses (mergeUses params.asyncState.endpointUses
        rejected.2.endpointUses) committed.2.endpointUses) dropped.2.endpointUses).length =
        params.asyncState.endpointUses.length := by simp
    have hmerged := hat.merged huses params.asyncState.taskReturn
    refine (liftFromMemory_inStep hW (hresult t hmem) hmerged).bind fun lifted hlifted => ?_
    refine ⟨hlowered, hcommit.1, hreject.1, ?_, ?_, hlifted.2.1.trans hsites, ?_⟩
    · rw [hr, Option.toList_some, List.flatMap_singleton]
      exact hdropped.1
    · rw [hr, Option.toList_some, List.flatMap_singleton]
      exact hlifted.1
    · rw [hlifted.2.2]
      exact congrArg List.length hsites

/-- The code for what a future or a stream carries. -/
structure PayloadInStep (W : WitParser) (sites : List AsyncEndpointSite) (start : Nat) (t : Ty) :
    Prop where
  lift : InStep sites (calls .lift start t.endpoints) (liftFromMemory W t (.fromSites sites))
  lower : InStep sites (calls .lower start t.endpoints) (lowerToMemory W t (.fromSites sites))
  commit : InStep sites (calls .commit start t.endpoints)
    (deallocateWithState W true [t] [()] true sites)
  reject : InStep sites (calls .lift start t.endpoints)
    (deallocateWithState W false [t] [()] true sites)

theorem payload_inStep {t : Ty} (hapart : t.Apart) {sites : List AsyncEndpointSite} {start : Nat}
    (hs : (AsyncFunctionState.fromSites sites).At start t.endpoints) :
    PayloadInStep W sites start t := by
  have hall : ∀ u ∈ [t], u.Apart := fun u hu => List.mem_singleton.mp hu ▸ hapart
  have htypes : [t].flatMap Ty.endpoints = t.endpoints := List.flatMap_singleton ..
  have hfree := fun commit => deallocateWithState_inStep hW hall commit [()] true (htypes ▸ hs)
  rw [htypes] at hfree
  refine ⟨liftFromMemory_inStep hW hapart hs, ?_, hfree true, hfree false⟩
  refine (lowerToMemory_inStep hW hapart hs rfl).mono ?_
  rintro r ⟨hcalls, uses, hlen, hstate⟩
  refine ⟨hcalls, ?_⟩
  rw [hstate]
  exact ⟨rfl, hlen.trans List.length_replicate⟩

end

end WitBindgen.Moonbit
