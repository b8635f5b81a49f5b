import Injector.Proofs.Wiring.Outcome
import Mathlib.Logic.Relation

/-!
# What bindings need at once

A binding needs another one at once when a parameter or an injection asks for it, directly or
through the parts of collections, tasks and tuples; what a provider makes is needed later. The main
statements are that this is computed by following types down to their parts, so that it can be
checked that no binding needs itself; that over a table without markers no request chooses anything
for a marker; and that a finished task leads to the same binding under whatever pin it is asked for,
where what holds one value has one argument.
-/

namespace Injector

attribute [ext] Request

/-- The constructors of a recipe. -/
def Recipe.constructors : Recipe → List Constructor
  | .construct _ _ constructors => constructors
  | .factory _ _ _ | .argument _ _ => []

/-- Whether a table leaves no choice: no contract has a marker, and no binding more than one
constructor. -/
structure Table.Rigid (t : Table) : Prop where
  /-- No binding is generic. -/
  unmarked : ∀ r ∈ t.bindings, r.isGeneric = false
  /-- No binding has two constructors. -/
  single : ∀ r ∈ t.bindings, r.recipe.constructors.length ≤ 1

/-- Whether the pin of a request, if it has one, chooses nothing for markers. -/
def Request.Unmarked (request : Request) : Prop := ∀ pin ∈ request.pin, pin.substitution = .empty

namespace Shapes

/-- Whether what holds one value has one argument at most: finished tasks, and providers that are
not called. -/
def Unary (shapes : Shapes) : Prop :=
  ∀ type strategy, shapes.lookup type = some strategy →
    strategy = .completed ∨ strategy = .lazy ∨ strategy = .threadLocal → type.args.length ≤ 1

theorem unary_of_registrations {shapes : Shapes}
    (h : ∀ r ∈ shapes.registrations,
      r.strategy = .completed ∨ r.strategy = .lazy ∨ r.strategy = .threadLocal →
        r.arity = some 1) : shapes.Unary := by
  intro type strategy hlookup hwraps
  cases type with
  | array element | tuple items =>
    cases hlookup
    rcases hwraps with hwraps | hwraps | hwraps <;> cases hwraps
  | marker name => cases hlookup
  | named name args =>
    cases args with
    | nil => exact Nat.zero_le _
    | cons arg rest =>
      obtain ⟨r, hfind, rfl⟩ := Option.map_eq_some_iff.mp hlookup
      have hcovers := List.find?_some hfind
      have harity := h r (List.mem_of_find?_eq_some hfind) hwraps
      simp only [ShapeRegistration.covers, harity, Bool.and_eq_true, Option.all_some,
        beq_iff_eq] at hcovers
      exact Nat.le_of_eq hcovers.2.symm

/-- The shapes that are known from the start are such. -/
theorem unary_builtin : builtin.Unary := unary_of_registrations (by decide)

end Shapes

namespace Resolver

variable {resolver : Resolver} {request : Request}

theorem unmarked_free (contract : Contract) : (Request.free contract).Unmarked := by
  intro pin h
  cases h

/-- A declared type without markers provides itself alone, without choices. -/
theorem of_provides? (ht : resolver.table.Rigid) {c : Contract} {id : BindingId}
    (hc : (c, id) ∈ resolver.table.activeContracts) {provided : TypeExpr} {s : Substitution}
    (h : provides? c.type provided = some s) : c.type = provided ∧ s = .empty := by
  obtain ⟨r, hr, hmem⟩ := Table.exists_of_mem_activeContracts hc
  have hmarker : c.type.containsMarker = false := by
    simpa using List.any_eq_false.mp (ht.unmarked r hr) c hmem
  unfold provides? at h
  split at h
  · next hsame => exact ⟨hsame, (Option.some.inj h).symm⟩
  · simp [hmarker] at h

/-- Over a table without markers a binding is found without choices. -/
theorem eq_empty_of_resolve (ht : resolver.table.Rigid) (hrequest : request.Unmarked)
    {id : BindingId} {s : Substitution} (h : resolver.resolve request = .binding id s) :
    s = .empty := by
  have hgeneric : resolver.generic? request.contract = none := by
    refine List.findSome?_eq_none_iff.mpr fun ⟨c, i⟩ hc => ?_
    obtain ⟨r, hr, hmem⟩ := Table.exists_of_mem_activeContracts (List.mem_reverse.mp hc)
    have hmarker : c.type.containsMarker = false := by
      simpa using List.any_eq_false.mp (ht.unmarked r hr) c hmem
    simp [hmarker]
  unfold resolve at h
  split at h
  · next pin hpin =>
    split at h
    · cases h
      exact hrequest pin hpin
    · exact absurd h synthesize_ne_binding
  · split at h
    · cases h
      rfl
    · split at h
      · cases h
        rfl
      · rw [hgeneric] at h
        exact absurd h synthesize_ne_binding

/-- Over a table without markers the parts of what is asked for without choices are so, too. -/
theorem unmarked_of_mem_dependencies (ht : resolver.table.Rigid) (hrequest : request.Unmarked)
    {strategy : Strategy} {dependencies : List Dependency} {providerArgs : List TypeExpr}
    (h : resolver.resolve request = .synthesized strategy dependencies providerArgs)
    {d : Dependency} (hd : d ∈ dependencies) : d.request.Unmarked := by
  intro pin hpin
  rcases pin_of_mem_dependencies h hd hpin with hsame | ⟨c, provided, hc, hprovides⟩
  · exact hrequest pin hsame
  · exact (of_provides? ht hc hprovides).2

/-- Whether a request leads to a binding at once: the binding answers it, or a part does that is
made with the value of its shape. -/
inductive Leads (resolver : Resolver) : Request → BindingId → Prop
  /-- The binding answers. -/
  | binding {request : Request} {id : BindingId} {s : Substitution}
      (resolves : resolver.resolve request = .binding id s) : Leads resolver request id
  /-- A part leads to the binding. -/
  | part {request : Request} {strategy : Strategy} {dependencies : List Dependency}
      {providerArgs : List TypeExpr} {d : Dependency} {id : BindingId}
      (resolves : resolver.resolve request = .synthesized strategy dependencies providerArgs)
      (mem : d ∈ dependencies) (eager : d.timing = .eager) (leads : Leads resolver d.request id) :
      Leads resolver request id

/-- A request that a binding answers leads to no other one. -/
theorem Leads.eq_of_resolve {id y : BindingId} {s : Substitution}
    (h : resolver.Leads request y) (hres : resolver.resolve request = .binding id s) : y = id := by
  cases h with
  | binding resolves => exact (Resolution.binding.inj (resolves.symm.trans hres)).1
  | part resolves => cases resolves.symm.trans hres

/-- Whether the pin of a request, if it has one, is to the active binding for its type under the tag
of the request, which asks for the type or for what holds a value of it. -/
def Anchors (resolver : Resolver) (request : Request) : Prop :=
  ∀ pin ∈ request.pin,
    resolver.table.active? ⟨pin.type, request.contract.tag⟩ = some pin.binding ∧
      (request.contract.type = pin.type ∨ request.contract.type.args.getLast? = some pin.type)

theorem anchors_free (contract : Contract) : resolver.Anchors (.free contract) := by
  intro pin h
  cases h

/-- What is synthesized under a pin holds a value of the type of the pin. -/
theorem Anchors.getLast?_eq (h : resolver.Anchors request) {strategy : Strategy}
    {dependencies : List Dependency} {providerArgs : List TypeExpr}
    (hres : resolver.resolve request = .synthesized strategy dependencies providerArgs) {pin : Pin}
    (hpin : request.pin = some pin) :
    request.contract.type.args.getLast? = some pin.type := by
  refine (h pin hpin).2.resolve_left fun hsame => ?_
  simp [resolve, hpin, hsame] at hres

/-- A wrapper that has one argument at most holds a value of its last one. -/
theorem eq_last_of_unary (hshapes : resolver.shapes.Unary) {strategy : Strategy}
    {dependencies : List Dependency} {providerArgs : List TypeExpr}
    (hres : resolver.resolve request = .synthesized strategy dependencies providerArgs)
    (hwraps : strategy = .completed ∨ strategy = .lazy ∨ strategy = .threadLocal)
    {part last : TypeExpr} {rest : List TypeExpr}
    (hargs : request.contract.type.args = part :: rest)
    (hlast : request.contract.type.args.getLast? = some last) : part = last := by
  have hlength := hshapes _ _ (synthesize_eq (synthesize_of_resolve hres)).1 hwraps
  rw [hargs] at hlength hlast
  obtain rfl : rest = [] := List.length_eq_zero_iff.mp (by simpa using hlength)
  simpa using hlast

/-- Where wrappers have one argument, the parts of what is asked for under such a pin are, too. -/
theorem Anchors.of_mem_dependencies (ht : resolver.table.Rigid) (hshapes : resolver.shapes.Unary)
    (h : resolver.Anchors request) {strategy : Strategy} {dependencies : List Dependency}
    {providerArgs : List TypeExpr}
    (hres : resolver.resolve request = .synthesized strategy dependencies providerArgs)
    {d : Dependency} (hd : d ∈ dependencies) : resolver.Anchors d.request := by
  intro pin hpin
  cases synthesizes_of_resolve hres with
  | @aggregate element rest free args =>
    obtain ⟨c, id, s, hc, -, hprovides, rfl⟩ := mem_elements hd
    cases hpin
    obtain ⟨htype, -⟩ := of_provides? ht hc hprovides
    refine ⟨?_, providedType_cases _ _⟩
    rw [← htype]
    exact Table.mem_activeContracts.mp hc
  | tuple =>
    obtain ⟨type, -, rfl⟩ := List.mem_map.mp hd
    cases hpin
  | func args =>
    obtain rfl := List.mem_singleton.mp hd
    have hlast := h.getLast?_eq hres hpin
    exact ⟨(h pin hpin).1, .inl (Option.some.inj (args.symm.trans hlast))⟩
  | completed args =>
    obtain rfl := List.mem_singleton.mp hd
    have hlast := h.getLast?_eq hres hpin
    exact ⟨(h pin hpin).1, .inl (eq_last_of_unary hshapes hres (.inl rfl) args hlast)⟩
  | later wraps args =>
    obtain rfl := List.mem_singleton.mp hd
    have hlast := h.getLast?_eq hres hpin
    exact ⟨(h pin hpin).1, .inl (eq_last_of_unary hshapes hres (.inr wraps) args hlast)⟩

/-- Where wrappers have one argument, a finished task leads to the active binding for its value,
under whatever pin it is asked for. -/
theorem Anchors.leads_iff (hshapes : resolver.shapes.Unary) (h : resolver.Anchors request)
    {dependencies : List Dependency} {providerArgs : List TypeExpr}
    (hres : resolver.resolve request = .synthesized .completed dependencies providerArgs)
    {last : TypeExpr} (hlast : request.contract.type.args.getLast? = some last) {id : BindingId}
    (hactive : resolver.table.active? ⟨last, request.contract.tag⟩ = some id) {y : BindingId} :
    resolver.Leads request y ↔ y = id := by
  cases synthesizes_of_resolve hres with
  | later wraps => rcases wraps with hwraps | hwraps <;> cases hwraps
  | @completed part rest args =>
    obtain rfl := eq_last_of_unary hshapes hres (.inl rfl) args hlast
    have hpart : ∃ s, resolver.resolve (carry request .eager part).request = .binding id s := by
      cases hpin : request.pin with
      | none => exact ⟨.empty, by simp [resolve, carry, hpin, hactive]⟩
      | some pin =>
        obtain rfl := Option.some.inj (hlast.symm.trans (h.getLast?_eq hres hpin))
        obtain rfl := Option.some.inj (hactive.symm.trans (h pin hpin).1)
        exact ⟨pin.substitution, by simp [resolve, carry, hpin]⟩
    obtain ⟨s, hs⟩ := hpart
    constructor
    · intro hleads
      cases hleads with
      | binding resolves => cases hres.symm.trans resolves
      | part resolves mem eager leads =>
        cases hres.symm.trans resolves
        obtain rfl := List.mem_singleton.mp mem
        exact leads.eq_of_resolve hs
    · rintro rfl
      exact .part hres (List.mem_singleton_self _) rfl (.binding hs)

/-- Where wrappers have one argument, values of one shape lead to the same bindings under different
pins: a request that is pinned is pinned to the active binding for the value. -/
theorem Anchors.leads_of_leads (hshapes : resolver.shapes.Unary) {request' : Request}
    (h : resolver.Anchors request) (h' : resolver.Anchors request')
    (hcontract : request.contract = request'.contract) (hpin : request.pin ≠ request'.pin)
    {strategy strategy' : Strategy} {dependencies dependencies' : List Dependency}
    {providerArgs providerArgs' : List TypeExpr}
    (hres : resolver.resolve request = .synthesized strategy dependencies providerArgs)
    (hres' : resolver.resolve request' = .synthesized strategy' dependencies' providerArgs')
    {y : BindingId} (hleads : resolver.Leads request y) : resolver.Leads request' y := by
  obtain ⟨rfl, -⟩ := synthesized_unique hres hres' hcontract
  cases hleads with
  | binding resolves => cases hres.symm.trans resolves
  | @part _ _ _ _ d _ resolves mem eager leads =>
    cases hres.symm.trans resolves
    cases synthesizes_of_resolve hres with
    | aggregate free =>
      cases synthesizes_of_resolve hres' with
      | aggregate free' => exact absurd (free.trans free'.symm) hpin
      | later wraps => rcases wraps with hwraps | hwraps <;> cases hwraps
    | tuple free =>
      cases synthesizes_of_resolve hres' with
      | tuple free' => exact absurd (free.trans free'.symm) hpin
      | later wraps => rcases wraps with hwraps | hwraps <;> cases hwraps
    | func | later =>
      obtain rfl := List.mem_singleton.mp mem
      cases eager
    | completed =>
      have hactive : ∃ last id, request.contract.type.args.getLast? = some last ∧
          resolver.table.active? ⟨last, request.contract.tag⟩ = some id := by
        cases hfree : request.pin with
        | some pin => exact ⟨_, _, h.getLast?_eq hres hfree, (h pin hfree).1⟩
        | none =>
          obtain ⟨pin, hsome⟩ : ∃ pin, request'.pin = some pin :=
            Option.ne_none_iff_exists'.mp fun hnone => hpin (hfree.trans hnone.symm)
          rw [hcontract]
          exact ⟨_, _, h'.getLast?_eq hres' hsome, (h' pin hsome).1⟩
      obtain ⟨last, id, hlast, hid⟩ := hactive
      obtain rfl := (h.leads_iff hshapes hres hlast hid).mp (.part hres mem eager leads)
      rw [hcontract] at hlast hid
      exact (h'.leads_iff hshapes hres' hlast hid).mpr rfl

/-- Whether a binding needs another one at once. -/
def NeedsEagerly (resolver : Resolver) (x y : BindingId) : Prop :=
  ∃ r l, resolver.table.bindings[x]? = some r ∧ .link l ∈ (Wiring.workOf r .empty).jobs ∧
    resolver.Leads l.wire.request y

/-- The bindings that a request leads to at once, found in a number of steps. -/
def leadsTo (resolver : Resolver) : (fuel : Nat) → Request → List BindingId
  | 0, _ => []
  | fuel + 1, request =>
      match resolver.resolve request with
      | .binding id _ => [id]
      | .synthesized _ dependencies _ =>
          (dependencies.filter fun d => d.timing == .eager).flatMap fun d =>
            resolver.leadsTo fuel d.request
      | .unresolved => []

/-- The bindings that a binding needs at once. -/
def needs (resolver : Resolver) (x : BindingId) : List BindingId :=
  match resolver.table.bindings[x]? with
  | none => []
  | some r =>
      (Wiring.workOf r .empty).jobs.flatMap fun job =>
        match job with
        | .complain _ => []
        | .link l => resolver.leadsTo l.wire.request.contract.type.size l.wire.request

theorem leads_of_mem_leadsTo {fuel : Nat} {id : BindingId}
    (h : id ∈ resolver.leadsTo fuel request) : resolver.Leads request id := by
  induction fuel generalizing request with
  | zero => cases h
  | succ fuel ih =>
    rw [leadsTo] at h
    split at h
    · next hres =>
      obtain rfl := List.mem_singleton.mp h
      exact .binding hres
    · next hres =>
      obtain ⟨d, hd, hid⟩ := List.mem_flatMap.mp h
      obtain ⟨hmem, htiming⟩ := List.mem_filter.mp hd
      exact .part hres hmem (by simpa using htiming) (ih hid)
    · cases h

/-- As many steps as the type is large are enough. -/
theorem Leads.mem_leadsTo {id : BindingId} (h : resolver.Leads request id)
    (hpin : resolver.Admits request) {fuel : Nat} (hfuel : request.contract.type.size ≤ fuel) :
    id ∈ resolver.leadsTo fuel request := by
  induction h generalizing fuel with
  | @binding request id s resolves =>
    have hpos := request.contract.type.size_pos
    obtain ⟨fuel, rfl⟩ : ∃ n, fuel = n + 1 := ⟨fuel - 1, by omega⟩
    simp [leadsTo, resolves]
  | @part request strategy dependencies providerArgs d id resolves mem eager leads ih =>
    have hpos := request.contract.type.size_pos
    obtain ⟨fuel, rfl⟩ : ∃ n, fuel = n + 1 := ⟨fuel - 1, by omega⟩
    obtain ⟨hadmits, hpart⟩ := mem_dependencies hpin resolves mem
    have hlt := TypeExpr.size_lt_of_mem_args hpart
    rw [leadsTo, resolves]
    exact List.mem_flatMap.mpr
      ⟨d, List.mem_filter.mpr ⟨mem, by simpa using eager⟩, ih hadmits (by omega)⟩

/-- What a binding needs at once can be computed. -/
theorem needsEagerly_iff {x y : BindingId} : resolver.NeedsEagerly x y ↔ y ∈ resolver.needs x := by
  unfold NeedsEagerly needs
  cases resolver.table.bindings[x]? with
  | none => simp
  | some r =>
    constructor
    · rintro ⟨r', l, heq, hl, hleads⟩
      obtain rfl := Option.some.inj heq
      obtain ⟨⟨c, hfree⟩, -, -⟩ := Wiring.plain_of_mem_workOf hl
      refine List.mem_flatMap.mpr ⟨_, hl, hleads.mem_leadsTo ?_ (Nat.le_refl _)⟩
      rw [hfree]
      exact resolver.admits_free c
    · intro hy
      obtain ⟨job, hjob, hmem⟩ := List.mem_flatMap.mp hy
      cases job with
      | complain issue => cases hmem
      | link l => exact ⟨r, l, rfl, hjob, leads_of_mem_leadsTo hmem⟩

/-- Whether no binding needs itself at once, in any number of steps. -/
def Acyclic (resolver : Resolver) : Prop := ∀ x, ¬ Relation.TransGen resolver.NeedsEagerly x x

/-- No binding needs itself at once where each needs only earlier ones. -/
theorem acyclic_of_needs_lt
    (h : ∀ x < resolver.table.bindings.length, ∀ y ∈ resolver.needs x, y < x) :
    resolver.Acyclic := by
  have hstep : ∀ {x y}, resolver.NeedsEagerly x y → y < x := by
    intro x y hxy
    have hx : x < resolver.table.bindings.length := by
      obtain ⟨r, l, hr, -⟩ := hxy
      exact (List.getElem?_eq_some_iff.mp hr).1
    exact h x hx y (needsEagerly_iff.mp hxy)
  have hpath : ∀ {x y}, Relation.TransGen resolver.NeedsEagerly x y → y < x := by
    intro x y hxy
    induction hxy with
    | single hxy => exact hstep hxy
    | tail _ hyz ih => exact Nat.lt_trans (hstep hyz) ih
  exact fun x hx => Nat.lt_irrefl x (hpath hx)

end Resolver

end Injector
