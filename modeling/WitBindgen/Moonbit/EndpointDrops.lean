import WitBindgen.Moonbit.EndpointRuns
import WitBindgen.Wit.Canonical

/-!
# The plan and the drop of a returned result

An async import numbers its arguments and its result in one plan, and drops a result that came
back too late with a cursor that starts over. The code for this asks for the first future or
stream of the result among all sites, those of the arguments included. It is in step with the
plan where no argument has a type that could be taken for it.
-/

namespace WitBindgen.Moonbit

open Generator

/-! ## Code that goes through -/

section
variable {W : WitParser} {α β : Type} {n m k : Nat}

/-- Where its operands are there, `g` puts `k` in place of `n` of them, unless a query finds no
site. -/
def Completes (n k : Nat) (g : Gen (functionBindgen W) α) : Prop :=
  ∀ s, n ≤ s.stack.length →
    Ends (· = .backend) (fun r => r.2.stack.length + n = s.stack.length + k) (g s)

namespace Completes

theorem bind {g : Gen (functionBindgen W) α} {f : α → Gen (functionBindgen W) β}
    (hg : Completes n m g) (hf : ∀ x, Completes m k (f x)) : Completes n k (g >>= f) := by
  intro s hs
  refine (hg s hs).bind fun r hr => ?_
  exact (hf r.1 r.2 (by omega)).mono fun r' hr' => by omega

theorem frame {g : Gen (functionBindgen W) α} (h : Completes n k g) (i : Nat) :
    Completes (i + n) (i + k) g :=
  fun s hs => (h s (by omega)).mono fun r hr => by omega

theorem pure (x : α) : Completes n n (Pure.pure x : Gen (functionBindgen W) α) := fun _ _ => rfl

theorem push : Completes 0 1 (Generator.push () : Gen (functionBindgen W) Unit) := by
  intro s _
  change (s.stack ++ [()]).length + 0 = _
  rw [List.length_append]
  rfl

theorem pop : Completes 1 0 (Generator.pop : Gen (functionBindgen W) Unit) := by
  intro s hs
  unfold Generator.pop
  split
  · change s.stack.dropLast.length + 1 = _
    rw [List.length_dropLast]
    omega
  · next hnone =>
      rw [List.getLast?_eq_none_iff.mp hnone] at hs
      cases hs

theorem step_ends (s : BindgenState) (i : Instruction) :
    Ends (· = .backend) (fun _ => True) (s.step i) := by
  have hnext : ∀ kind ty operation, Ends (· = .backend) (fun _ => True)
      (s.asyncState.nextSite kind ty operation) := by
    intro kind ty operation
    unfold AsyncFunctionState.nextSite
    split
    · rfl
    · dsimp only
      split
      · trivial
      · rfl
  unfold BindgenState.step
  split
  · exact (hnext ..).bind fun _ _ => trivial
  · exact (hnext ..).bind fun _ _ => trivial
  · exact (hnext ..).bind fun _ _ => trivial
  · exact (hnext ..).bind fun _ _ => trivial
  · unfold BindgenState.emitAsyncCallInterface
    split
    · trivial
    · rfl
  · unfold BindgenState.captureTaskReturn
    split
    · trivial
    · rfl
  · trivial

theorem emit {i : Instruction} (hn : i.operandsLen W = n) (hk : i.resultsLen W = k) :
    Completes n k (Generator.emit W i : Gen (functionBindgen W) Unit) := by
  intro s hs
  have hemit : ∀ operands, Ends (· = .backend) (fun r => r.1.length = k)
      ((functionBindgen W).emit i operands s.bindgen) := by
    intro operands
    have hresults : (List.replicate (i.resultsLen W) ()).length = k := List.length_replicate.trans hk
    dsimp only [functionBindgen, bindgen]
    split
    · exact hresults
    · exact (step_ends s.bindgen i).bind fun _ _ => hresults
  unfold Generator.emit
  dsimp only
  rw [hn, if_pos hs]
  specialize hemit (s.stack.drop (s.stack.length - n))
  split
  · next p hp => exact hemit.of_error hp
  · next results state hresults =>
      have hlen : results.length = k := hemit.of_ok hresults
      rw [if_pos (hlen.trans hk.symm)]
      change (s.stack.take (s.stack.length - n) ++ results).length + n = _
      rw [List.length_append, List.length_take, hlen]
      omega

theorem block {size : Nat} {body : Gen (functionBindgen W) Unit} (h : Completes 0 size body) :
    Completes 0 0 (Generator.block size body) := by
  refine bind (m := 0) (fun s _ => rfl) fun _ => h.bind fun _ => ?_
  intro s hs
  unfold Generator.finishBlock
  rw [if_pos hs]
  change (s.stack.take (s.stack.length - size)).length + size = _
  rw [List.length_take]
  omega

theorem forM {ι : Type} {xs : List ι} {f : ι → Gen (functionBindgen W) PUnit}
    (h : ∀ x ∈ xs, Completes 0 0 (f x)) : Completes 0 0 (xs.forM f) := by
  induction xs with
  | nil => exact pure _
  | cons x xs ih =>
    exact (h x List.mem_cons_self).bind fun _ => ih fun y hy => h y (List.mem_cons_of_mem _ hy)

theorem loadIntrepr (offset : ArchitectureSize) (repr : IntRepr) :
    Completes 1 1 (Generator.loadIntrepr W offset repr : Gen (functionBindgen W) Unit) := by
  cases repr <;> exact emit rfl rfl

theorem valueOffset {p : Nat} (hW : W.Lawful p) (key value : Ty) :
    Completes 0 0 (Generator.valueOffset W key value : Gen (functionBindgen W) _) := by
  have hlen := congrArg List.length (hW.fieldOffsets_types [key, value])
  rw [List.length_map] at hlen
  unfold Generator.valueOffset
  rw [List.getElem?_eq_getElem (by rw [hlen]; exact Nat.lt_succ_self 1)]
  exact pure _

theorem loadList (ty : Ty) (offset : ArchitectureSize) :
    Completes 0 2 (Generator.loadList W ty () offset : Gen (functionBindgen W) Unit) := by
  have hpointer : Completes 1 1
      (Generator.emit W (.pointerLoad offset) : Gen (functionBindgen W) Unit) := emit rfl rfl
  have hlength : Completes 1 1 (Generator.emit W (.lengthLoad (offset + (W.align ty).toSize)) :
      Gen (functionBindgen W) Unit) := emit rfl rfl
  exact push.bind fun _ => hpointer.bind fun _ => (push.frame 1).bind fun _ => hlength.frame 1

/-- The block for an element of a list, or for an entry of a map. -/
theorem forElement {free : Unit → Gen (functionBindgen W) Unit} (h : ∀ addr, Completes 0 0 (free addr)) :
    Completes 0 0 (Generator.block 0 (do
      Generator.emit W .iterBasePointer
      let addr ← Generator.pop
      free addr) : Gen (functionBindgen W) Unit) := by
  have hbase : Completes 0 1 (Generator.emit W .iterBasePointer : Gen (functionBindgen W) Unit) :=
    emit rfl rfl
  exact block (hbase.bind fun _ => pop.bind h)

theorem readHandle {lift : Gen (functionBindgen W) Unit} (h : Completes 1 1 lift)
    (offset : ArchitectureSize) : Completes 0 1 (emitAndLift W lift () (.i32Load offset)) := by
  have hload : Completes 1 1
      (Generator.emit W (.i32Load offset) : Gen (functionBindgen W) Unit) := emit rfl rfl
  exact push.bind fun _ => hload.bind fun _ => h

theorem dropOwnedIndirect {ty : Ty} (hread : ∀ offset,
      Completes 0 1 (readFromMemory W ty () offset : Gen (functionBindgen W) Unit))
    (offset : ArchitectureSize) : Completes 0 0
      (Generator.dropOwnedIndirect W .listsAndOwn ty () offset : Gen (functionBindgen W) Unit) :=
  (hread offset).bind fun _ => emit rfl rfl

end Completes

section
variable {ty : Ty} {a b : Bool}

theorem needsDeallocate_ok {what : Deallocate} (h : typeContainsCombination a b ty = .ok false) :
    ∀ p, needsDeallocate what ty ≠ .error p := by
  intro p hp
  induction ty using Ty.ind generalizing a b with
  | type id t ih | fixedLengthList id t n ih =>
    obtain ⟨a', b', hparts, -, -⟩ := combination_parts rfl h
    rw [needsDeallocate] at hp
    exact ih (hparts t List.mem_cons_self) hp
  | fields ty types hf ih =>
    obtain ⟨a', b', hparts, -, -⟩ := combination_parts (Ty.endpoint?_fields hf) h
    rw [needsDeallocate_fields hf] at hp
    obtain ⟨t, ht, hp⟩ := List.mem_map.mp (Traces.anyOk_error hp)
    exact ih t ht (hparts t (by rw [Ty.children_fields hf]; exact ht)) hp
  | arms ty arms ha ih =>
    obtain ⟨a', b', hparts, -, -⟩ := combination_parts (Ty.endpoint?_arms ha) h
    rw [needsDeallocate_arms ha] at hp
    obtain ⟨o, ho, hp⟩ := List.mem_map.mp (Traces.anyOk_error hp)
    cases o with
    | none => cases hp
    | some t =>
      refine ih t ho (hparts t ?_) hp
      rw [Ty.children_arms ha]
      exact List.reduceOption_mem_iff.mpr ho
  | handle id h' name => cases h' <;> · rw [needsDeallocate] at hp; cases hp
  | unknown id => rw [typeContainsCombination] at h; cases h
  | _ => rw [needsDeallocate] at hp; cases hp

/-- Code that gives back a value in memory. -/
abbrev Frees (W : WitParser) (ty : Ty) : Prop := ∀ addr offset,
  Completes 0 0 (deallocateIndirect W .listsAndOwn ty addr offset : Gen (functionBindgen W) Unit)

theorem Frees.of_needed (h : typeContainsCombination a b ty = .ok false)
    (hneeded : ∀ addr offset, Completes 0 0
      (deallocateIndirectNeeded W .listsAndOwn ty addr offset : Gen (functionBindgen W) Unit)) :
    Frees W ty := by
  intro addr offset
  rw [deallocateIndirect]
  split
  · next p hp => exact absurd hp (needsDeallocate_ok h p)
  · exact .pure ()
  · exact hneeded addr offset

/-- The code for a type that `preprocess` let through goes through, whatever the type. -/
theorem frees {p : Nat} (hW : W.Lawful p) (h : typeContainsCombination a b ty = .ok false) :
    Frees W ty := by
  induction ty using Ty.ind generalizing a b with
  | prim | errorContext | flags | enum | fixedLengthList =>
    refine .of_needed h fun addr offset => ?_
    rw [deallocateIndirectNeeded]
    exact .pure ()
  | string =>
    refine .of_needed h fun addr offset => ?_
    rw [deallocateIndirectNeeded, deallocate]
    exact (Completes.loadList _ _).bind fun _ => .emit rfl rfl
  | type id t ih =>
    obtain ⟨a', b', hparts, -, -⟩ := combination_parts rfl h
    refine .of_needed h fun addr offset => ?_
    rw [deallocateIndirectNeeded]
    exact ih (hparts t List.mem_cons_self) addr offset
  | list id t ih =>
    obtain ⟨a', b', hparts, -, -⟩ := combination_parts rfl h
    have helement := ih (hparts t List.mem_cons_self)
    refine .of_needed h fun addr offset => ?_
    rw [deallocateIndirectNeeded, deallocate]
    exact (Completes.loadList _ _).bind fun _ =>
      ((Completes.forElement fun addr => helement addr _).frame 2).bind fun _ => .emit rfl rfl
  | map id k t ihk iht =>
    obtain ⟨a', b', hparts, -, -⟩ := combination_parts rfl h
    have hkey := ihk (hparts k List.mem_cons_self)
    have hvalue := iht (hparts t (List.mem_cons_of_mem _ List.mem_cons_self))
    refine .of_needed h fun addr offset => ?_
    rw [deallocateIndirectNeeded, deallocate]
    exact (Completes.loadList _ _).bind fun _ => ((Completes.valueOffset hW k t).frame 2).bind
      fun _ => ((Completes.forElement fun addr => (hkey addr _).bind fun _ =>
        hvalue addr _).frame 2).bind fun _ => .emit rfl rfl
  | fields ty types hf ih =>
    obtain ⟨a', b', hparts, -, -⟩ := combination_parts (Ty.endpoint?_fields hf) h
    rw [Ty.children_fields hf] at hparts
    refine .of_needed h fun addr offset => ?_
    rw [(deallocate_fields_eq .listsAndOwn hf).2]
    refine .forM fun x hx => ?_
    obtain ⟨fieldOffset, member⟩ := x
    obtain ⟨t, ht, rfl⟩ := List.mem_map.mp (List.of_mem_zip hx).2
    exact ih t ht (hparts t ht) addr _
  | arms ty arms ha ih =>
    obtain ⟨a', b', hparts, -, -⟩ := combination_parts (Ty.endpoint?_arms ha) h
    rw [Ty.children_arms ha] at hparts
    refine .of_needed h fun addr offset => ?_
    rw [(deallocate_arms_eq .listsAndOwn ha).2]
    refine Completes.bind (m := 1) ?_ fun _ => .emit rfl rfl
    refine Completes.push.bind fun _ => (Completes.loadIntrepr _ _).bind fun _ =>
      (Completes.forM fun arm harm => .block ?_).frame 1
    obtain ⟨o, ho, rfl⟩ := List.mem_map.mp harm
    cases o with
    | none => exact .pure ()
    | some t => exact ih t ho (hparts t (List.reduceOption_mem_iff.mpr ho)) addr _
  | handle id h' name =>
    cases h' with
    | own r =>
      refine .of_needed h fun addr offset => ?_
      rw [deallocateIndirectNeeded]
      refine .dropOwnedIndirect (fun offset => ?_) offset
      rw [readFromMemory, lift]
      exact .readHandle (.emit rfl rfl) offset
    | borrow r =>
      intro addr offset
      rw [deallocateIndirect, needsDeallocate]
      exact .pure ()
  | future id t | stream id t =>
    refine .of_needed h fun addr offset => ?_
    rw [deallocateIndirectNeeded]
    refine .dropOwnedIndirect (fun offset => ?_) offset
    rw [readFromMemory, lift]
    exact .readHandle (.emit rfl rfl) offset
  | resource id =>
    intro addr offset
    rw [deallocateIndirect, needsDeallocate]
    exact .pure ()
  | unknown id => rw [typeContainsCombination] at h; cases h

end

/-! ## Dropping a result -/

/-- What the backend does while it drops a result. -/
abbrev asks (sites : List AsyncEndpointSite) (ty : Ty) : Except Panic BindgenState :=
  (ty.endpoints.map (Direction.instruction .lift)).foldlM (act fun _ _ s => .ok s)
    ⟨.fromSites sites, false, []⟩

variable {p : Nat} (hW : W.Lawful p) {ty : Ty}
include hW

/-- Dropping a result goes through where its queries do, and fails only where they fail. -/
theorem dropReturnedResult_runs (h : typeContainsCombination false false ty = .ok false)
    (sites : List AsyncEndpointSite) :
    (∃ f, asks sites ty = .ok f ∧ dropReturnedResult W sites ty = .ok (f.calls, f.asyncState)) ∨
      (asks sites ty = .error .backend ∧ dropReturnedResult W sites ty = .error .backend) := by
  have hapart : ∀ t ∈ [ty], t.Apart := fun t ht => by
    rw [List.mem_singleton.mp ht]
    exact (apart_of_accepted h).1
  have htrace := Traces.deallocateInTypes (W := W) functionBindgen_acts hW hapart [()] true
  rw [asks_types, List.flatMap_singleton] at htrace
  have hrun : Ends (· = .backend) (fun _ => True) (deallocateInTypes W .listsAndOwn [ty] [()] true
      (generator W (.fromSites sites) false)) := by
    unfold deallocateInTypes
    rw [if_pos rfl]
    refine Ends.bind (Completes.forM (fun x hx => ?_) _ (Nat.zero_le _)) fun r hr => ?_
    · obtain ⟨offset, t⟩ := x
      rw [List.mem_singleton.mp (List.of_mem_zip hx).2]
      exact frees hW h () offset
    · have hempty : r.2.stack.length = 0 := hr
      change Ends _ _ (Generator.assert (r.2.stack.length = 0) r.2)
      rw [hempty]
      trivial
  have hwritten : dropReturnedResult W sites ty = (do
      let x ← deallocateInTypes W .listsAndOwn [ty] [()] true
        (generator W (.fromSites sites) false)
      return (x.2.bindgen.calls, x.2.bindgen.asyncState)) := rfl
  rw [hwritten]
  cases hg : deallocateInTypes W .listsAndOwn [ty] [()] true (generator W (.fromSites sites) false) with
  | error e =>
    cases hrun.of_error hg
    exact .inr ⟨(htrace _).2 hg, rfl⟩
  | ok q =>
    exact .inl ⟨q.2.bindgen, ((htrace _).1 q.1 q.2 hg).2, rfl⟩

omit hW in
theorem nextSite_among {s s' : AsyncFunctionState} {before after : List AsyncEndpointSite}
    {kind : PayloadFor} {id : TypeId} {operation : EndpointOperation} {site : AsyncEndpointSite}
    (hsites : s.endpointSites.drop s.nextEndpoint = before ++ after)
    (hsome : ∃ x ∈ before, x.kind = kind ∧ x.ty = id)
    (h : s.nextSite kind id operation = .ok (site, s')) : site ∈ before := by
  have hfound : (before.findIdx? fun x => x.kind = kind ∧ x.ty = id).isSome := by
    rw [List.findIdx?_isSome, List.any_eq_true]
    obtain ⟨x, hx, hkey⟩ := hsome
    exact ⟨x, hx, decide_eq_true hkey⟩
  obtain ⟨offset, hoffset⟩ := Option.isSome_iff_exists.mp hfound
  obtain ⟨hlt, -⟩ := List.findIdx?_eq_some_iff_getElem.mp hoffset
  have hfind : (s.endpointSites.drop s.nextEndpoint).findIdx?
      (fun x => x.kind = kind ∧ x.ty = id) = some offset := by
    rw [hsites, List.findIdx?_append, hoffset]
    rfl
  unfold AsyncFunctionState.nextSite at h
  rw [hfind] at h
  dsimp only at h
  split at h
  · next x use hx _ =>
      cases h
      rw [← List.getElem?_drop, hsites, List.getElem?_append_left hlt] at hx
      exact List.mem_of_getElem? hx
  · cases h

omit hW in
theorem act_calls {s s' : BindgenState} {e : Endpoint}
    (h : act (fun _ _ s => .ok s) s (Direction.lift.instruction e) = .ok s') :
    ∃ site state, s.asyncState.nextSite e.kind e.ty .lift = .ok (site, state) ∧
      s'.calls = s.calls ++ [⟨Direction.lift.helper s, site⟩] := by
  rw [act_endpoint] at h
  cases hnext : s.asyncState.nextSite e.kind e.ty .lift with
  | error p =>
    change (s.asyncState.nextSite e.kind e.ty .lift >>= _) = _ at h
    rw [hnext] at h
    cases h
  | ok r =>
    change (s.asyncState.nextSite e.kind e.ty .lift >>= _) = _ at h
    rw [hnext] at h
    cases h
    exact ⟨r.1, r.2, rfl, rfl⟩

omit hW in
/-- A query leaves the calls written before it. -/
theorem asks_prefix_calls {es : List Endpoint} {s s' : BindgenState}
    (h : (es.map (Direction.instruction .lift)).foldlM (act fun _ _ s => .ok s) s = .ok s') :
    s.calls <+: s'.calls := by
  induction es generalizing s with
  | nil => cases h; exact List.prefix_rfl
  | cons e es ih =>
    rw [List.map_cons, List.foldlM_cons] at h
    cases hact : act (fun _ _ s => .ok s) s (Direction.lift.instruction e) with
    | error p => rw [hact] at h; cases h
    | ok s₁ =>
      rw [hact] at h
      obtain ⟨site, state, -, hcalls⟩ := act_calls hact
      exact List.IsPrefix.trans ⟨_, hcalls.symm⟩ (ih h)

/-- The first query of the drop is answered with a site of the arguments where one has the type
asked for. -/
theorem drop_not_inStep (h : typeContainsCombination false false ty = .ok false)
    {before : List Endpoint} {e e' : Endpoint} (he : e ∈ ty.endpoints.head?) (he' : e' ∈ before)
    (hkind : e'.kind = e.kind) (hty : e'.ty = e.ty) (after : List Endpoint)
    {sites : List AsyncEndpointSite} (hsites : sites = sitesFrom 0 (before ++ after)) :
    ¬InStep sites (calls .lift before.length ty.endpoints) (dropReturnedResult W sites ty) := by
  obtain ⟨es, hes⟩ : ∃ es, ty.endpoints = e :: es := List.head?_eq_some_iff.mp he
  have hmember : ∃ x ∈ sitesFrom 0 before, x.kind = e.kind ∧ x.ty = e.ty := by
    obtain ⟨front, back, rfl⟩ := List.append_of_mem he'
    refine ⟨siteOf e' (0 + front.length), ?_, hkind, hty⟩
    rw [sitesFrom_append]
    exact List.mem_append_right _ List.mem_cons_self
  intro hstep
  rcases dropReturnedResult_runs hW h sites with ⟨f, hasks, hdrop⟩ | ⟨-, hdrop⟩
  · rw [hdrop] at hstep
    obtain ⟨hcalls, -⟩ : f.calls = calls .lift before.length ty.endpoints ∧ _ := hstep
    rw [asks, hes, List.map_cons, List.foldlM_cons] at hasks
    cases hact : act (fun _ _ s => .ok s) ⟨.fromSites sites, false, []⟩
        (Direction.lift.instruction e) with
    | error p => rw [hact] at hasks; cases hasks
    | ok s =>
      rw [hact] at hasks
      obtain ⟨site, state, hnext, hfirst⟩ := act_calls hact
      have hsplit : (AsyncFunctionState.fromSites sites).endpointSites.drop 0 =
          sitesFrom 0 before ++ sitesFrom (0 + before.length) after :=
        hsites.trans (sitesFrom_append 0 before after)
      obtain ⟨-, -, hlt⟩ := sitesFrom_keys (nextSite_among hsplit hmember hnext)
      obtain ⟨rest, hrest⟩ := asks_prefix_calls hasks
      rw [hfirst, hcalls, hes, calls, located] at hrest
      have hsame : site = siteOf e (before.length + e.nested.length) :=
        congrArg Call.site (List.cons.inj hrest).1
      have hindex : site.index = before.length + e.nested.length := congrArg (·.index) hsame
      omega
  · rw [hdrop] at hstep
    exact hstep rfl

/-- Where no argument has the type that the drop asks for first, it asks as the plan has it. -/
theorem drop_inStep (h : typeContainsCombination false false ty = .ok false)
    {before : List Endpoint} (hfirst : ∀ e ∈ ty.endpoints.head?, ∀ e' ∈ before, e'.ty ≠ e.ty)
    (hnested : ∀ e ∈ ty.endpoints, ∀ e' ∈ e.nested, e'.ty ≠ e.ty)
    {sites : List AsyncEndpointSite} (hsites : sites = sitesFrom 0 (before ++ spread ty.endpoints)) :
    InStep sites (calls .lift before.length ty.endpoints) (dropReturnedResult W sites ty) := by
  obtain ⟨f, hasks, hcalls, hleft, huses⟩ : ∃ f, asks sites ty = .ok f ∧
      f.calls = calls .lift before.length ty.endpoints ∧ f.asyncState.endpointSites = sites ∧
      f.asyncState.endpointUses.length = sites.length := by
    cases hes : ty.endpoints with
    | nil =>
      refine ⟨⟨.fromSites sites, false, []⟩, ?_, rfl, rfl, List.length_replicate⟩
      rw [asks, hes]
      rfl
    | cons e es =>
      rw [hes] at hnested hsites hfirst
      have hsplit : sites = sitesFrom 0 before ++ (sitesFrom before.length (e.nested ++ [e]) ++
          sitesFrom (before.length + (e.nested ++ [e]).length) (spread es)) := by
        rw [hsites, sitesFrom_append, spread_cons, sitesFrom_append, Nat.zero_add]
      have hskip : ∀ x ∈ sitesFrom 0 before, ¬(x.kind = e.kind ∧ x.ty = e.ty) := by
        intro x hx hkey
        obtain ⟨⟨e', he', -, hty⟩, -⟩ := sitesFrom_keys hx
        exact hfirst e rfl e' he' (hty.trans hkey.2)
      have hfront : (sitesFrom 0 before ++ sitesFrom before.length (e.nested ++ [e])).length =
          0 + (sitesFrom 0 before).length + e.nested.length + 1 := by
        rw [List.length_append, sitesFrom_length, sitesFrom_length, List.length_append]
        exact (congrArg (· + _) (Nat.zero_add _)).symm
      have hrest : sites.drop (0 + (sitesFrom 0 before).length + e.nested.length + 1) =
          sitesFrom (before.length + e.nested.length + 1) (spread es) ++ [] := by
        rw [hsplit, ← List.append_assoc, List.drop_left' hfront, List.append_nil,
          List.length_append]
        rfl
      obtain ⟨s₁, h₁, uses₁, hlen₁, rfl⟩ := ask_one (fun _ _ s => .ok s) .lift
        (s := ⟨.fromSites sites, false, []⟩) _ hsplit hskip (hnested e List.mem_cons_self)
        List.length_replicate
      obtain ⟨s₂, h₂, uses₂, hlen₂, rfl⟩ := ask_all (fun _ _ s => .ok s) .lift
        (s := ⟨{ AsyncFunctionState.fromSites sites with
            nextEndpoint := 0 + (sitesFrom 0 before).length + e.nested.length + 1
            endpointUses := uses₁ }, false,
          [] ++ [⟨.lift, siteOf e (before.length + e.nested.length)⟩]⟩)
        hrest (fun e' he' => hnested e' (List.mem_cons_of_mem _ he'))
        (hlen₁.trans List.length_replicate)
      refine ⟨_, Eq.trans ?_ h₂, rfl, rfl, hlen₂.trans (hlen₁.trans List.length_replicate)⟩
      rw [asks, hes, List.map_cons, List.foldlM_cons, h₁]
      rfl
  rcases dropReturnedResult_runs hW h sites with ⟨f', hasks', hdrop⟩ | ⟨hasks', -⟩
  · cases hasks.symm.trans hasks'
    rw [hdrop]
    exact ⟨hcalls, hleft, huses⟩
  · cases hasks.symm.trans hasks'

end

/-! ## The plan of a function -/

/-- How a function is bound. -/
inductive Binding where
  | importSync
  | importAsync
  | export_ (async_ : Bool)
deriving DecidableEq

/-- The endpoints of the parameters and of the result that lie outside of any payload. -/
abbrev paramEndpoints (func : Function) : List Endpoint := func.paramTypes.flatMap Ty.endpoints
abbrev resultEndpoints (func : Function) : List Endpoint := func.result.toList.flatMap Ty.endpoints

/-- The number of sites that the parameters have. -/
abbrev paramSites (func : Function) : Nat := (func.paramTypes.flatMap Ty.allEndpoints).length

/-- What the binding asks of the plan is answered with the sites of the values at hand. -/
def BindingInStep (W : WitParser) (sites : List AsyncEndpointSite) (func : Function) :
    Binding → Prop
  | .importSync => InStep sites (calls .lower 0 (paramEndpoints func) ++
      calls .commit 0 (paramEndpoints func) ++
      calls .lift (paramSites func) (resultEndpoints func)) (importSync W sites func)
  | .importAsync =>
    Ends (· ≠ .backend) (·.InStep sites func) (generateAsyncImportFunction W sites func
      (W.wasmSignature .guestImportAsync func)) ∧
    ∀ ty ∈ func.result, InStep sites (calls .lift (paramSites func) ty.endpoints)
      (dropReturnedResult W sites ty)
  | .export_ async_ => InStep sites (calls .lift 0 (paramEndpoints func) ++
      calls (if async_ then .lowerCommitted else .lower) (paramSites func)
        (resultEndpoints func)) (export_ W sites func async_)

/-- The plan of a function numbers its futures and streams, and all code that is written for
it, that for its payloads included, is in step with the numbers. -/
structure EndpointsInStep (W : WitParser) (R : Resolve) (func : Function) (binding : Binding)
    (sites : List AsyncEndpointSite) : Prop where
  planned : asyncEndpointSites R func = .ok sites
  numbered : sites = sitesFrom 0 (occurrences func)
  listed : sites.map (·.ty) = R.findFuturesAndStreams func
  payloads : ∀ i e, (occurrences func)[i]? = some e → payloadSites sites (siteOf e i) =
    sitesFrom (i - e.nested.length) e.nested
  increasing : ((located 0 (paramEndpoints func) ++
    located (paramSites func) (resultEndpoints func)).map (·.index)).Pairwise (· < ·)
  uses : ∀ s : AsyncFunctionState, s.endpointUses.length = sites.length →
    ∃ uses, endpointUses sites s = .ok uses
  helpers : ∀ i e, (occurrences func)[i]? = some e → ∀ t, e.payload = some t →
    PayloadInStep W (payloadSites sites (siteOf e i)) (i - e.nested.length) t
  binding : BindingInStep W sites func binding

/-- No parameter has the type of the first future or stream of the result. -/
def ResultApart (func : Function) : Prop :=
  ∀ ty ∈ func.result, ∀ e ∈ ty.endpoints.head?, ∀ e' ∈ func.paramTypes.flatMap Ty.allEndpoints,
    e'.ty ≠ e.ty

section
variable {W : WitParser} {p : Nat} (hW : W.Lawful p) {R : Resolve} {func : Function}
  (hR : R.Describes func) (haccepted : Accepted func)

theorem sitesFrom_types (start : Nat) (es : List Endpoint) :
    (sitesFrom start es).map (·.ty) = es.map (·.ty) := by
  induction es generalizing start with
  | nil => rfl
  | cons e es ih => rw [sitesFrom, List.map_cons, ih]; rfl

include hR in
/-- A cursor that starts over is in front of the sites of some occurrences and of what is in
their payloads. -/
theorem starts {start : Nat} {es : List Endpoint} (hes : ∀ e ∈ spread es, e ∈ occurrences func) :
    (AsyncFunctionState.fromSites (sitesFrom start (spread es))).At start es := by
  refine ⟨⟨[], (List.append_nil _).symm⟩, fun e he e' he' => ?_, List.length_replicate⟩
  have hmem : e ∈ occurrences func :=
    hes e (List.mem_flatMap.mpr ⟨e, he, List.mem_append_right _ List.mem_cons_self⟩)
  exact hR.not_nested hmem (mem_nested (postOrder_occurrences func) hmem he') he'

include hW hR haccepted in
theorem helpers_inStep {i : Nat} {e : Endpoint} (he : (occurrences func)[i]? = some e) {t : Ty}
    (ht : e.payload = some t) : PayloadInStep W
      (payloadSites (sitesFrom 0 (occurrences func)) (siteOf e i)) (i - e.nested.length) t := by
  have hmem := List.mem_of_getElem? he
  obtain ⟨ty, hty, hin⟩ := List.mem_flatMap.mp hmem
  have hspread : e.nested = spread t.endpoints := by
    rw [Endpoint.nested, ht]
    exact Ty.allEndpoints_eq t
  rw [payloadSites_eq (postOrder_occurrences func) he]
  refine payload_inStep hW (apart_of_accepted (payload_accepted (haccepted ty hty) e hin t ht)).1 ?_
  rw [hspread]
  refine starts hR fun e' he' => mem_nested (postOrder_occurrences func) hmem ?_
  rwa [hspread]

include hW hR haccepted in
theorem binding_inStep_iff (binding : Binding) :
    BindingInStep W (sitesFrom 0 (occurrences func)) func binding ↔
      (binding = .importAsync → ResultApart func) := by
  have hparams : ∀ t ∈ func.paramTypes, t.Apart := fun t ht =>
    (apart_of_accepted (haccepted t (List.mem_append_left _ ht))).1
  have hmem : ∀ t ∈ func.result, t ∈ func.types := fun t ht =>
    List.mem_append_right _ (Option.mem_toList.mpr ht)
  have hresult : ∀ t ∈ func.result, t.Apart := fun t ht =>
    (apart_of_accepted (haccepted t (hmem t ht))).1
  have hspread : occurrences func = spread (func.types.flatMap Ty.endpoints) := spread_types _
  have hs : (AsyncFunctionState.fromSites (sitesFrom 0 (occurrences func))).At 0
      (func.types.flatMap Ty.endpoints) := by
    rw [hspread]
    exact starts hR fun e he => hspread ▸ he
  have hsites : ∀ ty ∈ func.result, occurrences func =
      func.paramTypes.flatMap Ty.allEndpoints ++ spread ty.endpoints := by
    intro ty hty
    rw [occurrences, Function.types, List.flatMap_append, Option.mem_def.mp hty, Option.toList_some,
      List.flatMap_singleton, Ty.allEndpoints_eq ty]
  cases binding with
  | importSync =>
    have hstep := importSync_inStep hW hparams hresult hs
    rw [Nat.zero_add] at hstep
    exact ⟨fun _ => (by simp), fun _ => hstep⟩
  | export_ async_ =>
    have hstep := export_inStep hW hparams hresult hs async_
    rw [Nat.zero_add] at hstep
    exact ⟨fun _ => (by simp), fun _ => hstep⟩
  | importAsync =>
    constructor
    · rintro ⟨-, hdrop⟩ - ty hty e he e' he' hsame
      have hin : e ∈ occurrences func := by
        rw [hsites ty hty]
        refine List.mem_append_right _ (List.mem_flatMap.mpr ⟨e, List.mem_of_mem_head? he, ?_⟩)
        exact List.mem_append_right _ List.mem_cons_self
      have hin' : e' ∈ occurrences func := by
        rw [hsites ty hty]
        exact List.mem_append_left _ he'
      have htypes := hR.types e' hin'
      rw [hsame, hR.types e hin] at htypes
      have hkind : e'.kind = e.kind := congrArg (·.kind) (Option.some.inj htypes).symm
      exact drop_not_inStep hW (haccepted ty (hmem ty hty)) he he' hkind hsame _
        (congrArg (sitesFrom 0) (hsites ty hty)) (hdrop ty hty)
    · intro hapart
      have hdrop : ∀ ty ∈ func.result, InStep (sitesFrom 0 (occurrences func))
          (calls .lift (paramSites func) ty.endpoints)
          (dropReturnedResult W (sitesFrom 0 (occurrences func)) ty) := by
        intro ty hty
        refine drop_inStep hW (haccepted ty (hmem ty hty)) (hapart rfl ty hty) ?_
          (congrArg (sitesFrom 0) (hsites ty hty))
        refine fun e he => hs.nested e (List.mem_flatMap.mpr ⟨ty, hmem ty hty, he⟩)
      exact ⟨generateAsyncImportFunction_inStep hW hparams hresult hs hdrop _, hdrop⟩

include hW hR haccepted in
/-- The plan is in step with the code for every function that `preprocess` lets through and every
way to bind it, unless it is an async import with a parameter that the drop of its result takes
for the result. -/
theorem endpoints_in_step_iff (binding : Binding) :
    (∃ sites, EndpointsInStep W R func binding sites) ↔
      (binding = .importAsync → ResultApart func) := by
  have hpost := postOrder_occurrences func
  constructor
  · rintro ⟨sites, h⟩
    have hbinding := h.binding
    rw [h.numbered] at hbinding
    exact (binding_inStep_iff hW hR haccepted binding).mp hbinding
  · intro h
    refine ⟨sitesFrom 0 (occurrences func), asyncEndpointSites_ok hR haccepted, rfl, ?_,
      fun i e he => payloadSites_eq hpost he, ?_, fun s hs => endpointUses_ok _ hs,
      fun i e he t ht => helpers_inStep hW hR haccepted he ht,
      (binding_inStep_iff hW hR haccepted binding).mpr h⟩
    · rw [sitesFrom_types, hR.postOrder]
    · have happend := located_append 0 (paramEndpoints func) (resultEndpoints func)
      rw [Nat.zero_add, ← spread_types] at happend
      rw [← happend]
      exact located_increasing _ _

end

/-! ## A future for a future -/

/-- `f: async func(a: future<u32>) -> future<u32>`, with the types of the two futures. -/
def exchange (argument result : TypeId) : Function :=
  { name := "f", kind := .freestanding, params := [("a", .future argument (some (.prim .u32)))],
    result := some (.future result (some (.prim .u32))) }

def futures : Resolve :=
  { types := fun id => .future id (some (.prim .u32))
    findFuturesAndStreams := fun func => (occurrences func).map (·.ty) }

theorem future_allEndpoints (id : TypeId) : (Ty.future id (some (.prim .u32))).allEndpoints =
    [⟨.future, id, some (.prim .u32)⟩] := by
  have hpayload : (Ty.prim .u32).allEndpoints = [] := Ty.allEndpoints_children rfl
  rw [Ty.allEndpoints_self rfl, Endpoint.nested]
  exact congrArg (· ++ _) hpayload

theorem exchange_occurrences (argument result : TypeId) : occurrences (exchange argument result) =
    [⟨.future, argument, some (.prim .u32)⟩, ⟨.future, result, some (.prim .u32)⟩] := by
  change [_, _].flatMap Ty.allEndpoints = _
  rw [List.flatMap_cons, List.flatMap_singleton, future_allEndpoints, future_allEndpoints]
  rfl

theorem futures_describes (argument result : TypeId) : futures.Describes (exchange argument result) := by
  refine ⟨rfl, fun e he => ?_⟩
  rw [exchange_occurrences] at he
  rcases List.mem_pair.mp he with rfl | rfl <;> rfl

theorem exchange_accepted (argument result : TypeId) : Accepted (exchange argument result) := by
  intro ty hty
  rcases List.mem_pair.mp hty with rfl | rfl <;>
    rw [typeContainsCombination, typeContainsCombination] <;> rfl

/-- The drop of the returned future is in step where the other future is of another type. -/
theorem exchange_apart (argument result : TypeId) :
    ResultApart (exchange argument result) ↔ argument ≠ result := by
  have hparams : (exchange argument result).paramTypes.flatMap Ty.allEndpoints =
      [⟨.future, argument, some (.prim .u32)⟩] :=
    (List.flatMap_singleton ..).trans (future_allEndpoints argument)
  have hresult : (Ty.future result (some (.prim .u32))).endpoints =
      [⟨.future, result, some (.prim .u32)⟩] := Ty.endpoints_self rfl
  constructor
  · intro h
    refine h _ rfl ⟨.future, result, some (.prim .u32)⟩ ?_ ⟨.future, argument, some (.prim .u32)⟩ ?_
    · rw [hresult]
      rfl
    · rw [hparams]
      exact List.mem_singleton_self _
  · intro hne ty hty e he e' he'
    cases hty
    rw [hresult] at he
    cases he
    rw [hparams] at he'
    cases List.mem_singleton.mp he'
    exact hne

/-- An async import of a function that takes and returns futures of different types. -/
theorem distinct_futures_in_step :
    ∃ sites, EndpointsInStep .canonical futures (exchange 0 1) .importAsync sites := by
  refine (endpoints_in_step_iff canonical_lawful (futures_describes 0 1) (exchange_accepted 0 1)
    .importAsync).mpr ?_
  exact fun _ => (exchange_apart 0 1).mpr Nat.zero_ne_one

/-- The drop of a returned future asks for the one that was passed where both have one type. -/
theorem shared_future_out_of_step :
    futures.Describes (exchange 0 0) ∧ Accepted (exchange 0 0) ∧
      ¬∃ sites, EndpointsInStep .canonical futures (exchange 0 0) .importAsync sites := by
  have hR := futures_describes 0 0
  have haccepted := exchange_accepted 0 0
  refine ⟨hR, haccepted, ?_⟩
  rintro ⟨sites, h⟩
  have hbinding := h.binding
  rw [h.numbered] at hbinding
  have hapart := (binding_inStep_iff canonical_lawful hR haccepted .importAsync).mp hbinding rfl
  exact (exchange_apart 0 0).mp hapart rfl

end WitBindgen.Moonbit
