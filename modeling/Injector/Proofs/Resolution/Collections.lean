import Injector.Proofs.Resolution.Candidates

/-!
# What a collection gathers

A collection asks for one element from each binding that answers what it gathers: its element type
or, where the element is a provider or a task, what that holds. The main statements are that the
bindings that are asked are exactly those that are active for a contract that fits, each once and in
the order of declaration, and that an element leads to its binding unless it is a wrapper of several
arguments whose first one is not the last.
-/

namespace Injector

/-- Whether a value is made by a strategy from one other value, for which it is asked. -/
def Strategy.wraps : Strategy → Bool
  | .func | .lazy | .threadLocal | .completed => true
  | .aggregate | .tuple => false

/-- Whether a collection of an element gathers a type: the last argument of a wrapper, or the
element itself where it is none. -/
inductive Shapes.Gathers (shapes : Shapes) (element : TypeExpr) : TypeExpr → Prop
  /-- The element has the shape of a wrapper. -/
  | wrapped {strategy : Strategy} {provided : TypeExpr}
      (shape : shapes.lookup element = some strategy) (wraps : strategy.wraps = true)
      (last : element.args.getLast? = some provided) : Gathers shapes element provided
  /-- The element has no such shape. -/
  | plain (shape : ∀ strategy, shapes.lookup element = some strategy → strategy.wraps = false) :
      Gathers shapes element element

/-- Whether a wrapper holds its last argument: a function does, and any other if that is its first
argument too. -/
def Shapes.HoldsLast (shapes : Shapes) (element : TypeExpr) : Prop :=
  ∀ strategy, shapes.lookup element = some strategy → strategy.wraps = true →
    strategy = .func ∨ element.args.head? = element.args.getLast?

/-- Whether a contract fits a collection that gathers a type, possibly under a tag. -/
structure Contract.Fits (declared : Contract) (provided : TypeExpr) (tag : Option Tag) : Prop where
  /-- Where a tag is asked for, the contract has it or answers every tag. -/
  tag : ∀ requested, tag = some requested →
    declared.tag = some requested ∨ declared.tag = some .any
  /-- The contract has the type, or a pattern that matches it. -/
  type : declared.type = provided ∨
    declared.type.containsMarker = true ∧ (declared.type.unify provided).isSome = true

namespace Shapes

variable {shapes : Shapes} {element : TypeExpr} {strategy : Strategy}

/-- A wrapper has arguments. -/
theorem args_ne_nil (h : shapes.lookup element = some strategy) (hwraps : strategy.wraps = true) :
    element.args ≠ [] := by
  cases element with
  | named name args =>
    cases args with
    | nil => cases h
    | cons arg args => exact List.cons_ne_nil arg args
  | marker name => cases h
  | array part => exact List.cons_ne_nil part []
  | tuple items =>
    cases h
    cases hwraps

/-- What a collection gathers is determined by the shape of its element. -/
theorem gathers_providedType (shapes : Shapes) (element : TypeExpr) :
    shapes.Gathers element (Resolver.providedType shapes element) := by
  have hwrapped : ∀ {strategy : Strategy}, shapes.lookup element = some strategy →
      strategy.wraps = true → shapes.Gathers element (element.args.getLast?.getD element) := by
    intro strategy hshape hwraps
    have hlast := List.getLast?_eq_some_getLast (args_ne_nil hshape hwraps)
    rw [hlast, Option.getD_some]
    exact .wrapped hshape hwraps hlast
  unfold Resolver.providedType
  split
  · next hshape => exact hwrapped hshape rfl
  · next hshape => exact hwrapped hshape rfl
  · next hshape => exact hwrapped hshape rfl
  · next hshape => exact hwrapped hshape rfl
  · next hfunc hlazy hthreadLocal hcompleted =>
    refine .plain fun strategy hshape => ?_
    cases strategy with
    | func => exact absurd hshape hfunc
    | lazy => exact absurd hshape hlazy
    | threadLocal => exact absurd hshape hthreadLocal
    | completed => exact absurd hshape hcompleted
    | aggregate | tuple => rfl

end Shapes

namespace Resolver

/-- The bindings that are asked for by dependencies. -/
def pinnedBindings (dependencies : List Dependency) : List BindingId :=
  dependencies.filterMap fun d => d.request.pin.map Pin.binding

/-! ### Contracts that fit -/

section Contracts

variable {declared provided : TypeExpr} {c : Contract} {tag : Option Tag}

theorem substitute_of_provides? {s : Substitution} (h : provides? declared provided = some s) :
    declared.substitute s = provided := by
  unfold provides? at h
  split at h
  · next heq =>
    cases h
    rw [TypeExpr.substitute_empty, heq]
  · split at h
    · exact TypeExpr.substitute_of_unify h
    · cases h

theorem provides?_isSome_iff : (provides? declared provided).isSome = true ↔
    declared = provided ∨
      declared.containsMarker = true ∧ (declared.unify provided).isSome = true := by
  unfold provides?
  split
  · next heq => simp [heq]
  · next hne =>
    split
    · next hmarker => simp [hne, hmarker]
    · next hmarker => simp [hne, hmarker]

private theorem answers_requested_iff : (tag.isSome && !Tag.answers c.tag tag) = false ↔
    ∀ requested, tag = some requested → c.tag = some requested ∨ c.tag = some .any := by
  cases tag with
  | none => simp
  | some requested => simp [Tag.answers_iff]

/-- A contract fits exactly when it passes both tests of a collection. -/
theorem fits_iff : c.Fits provided tag ↔ (tag.isSome && !Tag.answers c.tag tag) = false ∧
    (provides? c.type provided).isSome = true := by
  rw [answers_requested_iff, provides?_isSome_iff]
  exact ⟨fun h => ⟨h.tag, h.type⟩, fun h => ⟨h.1, h.2⟩⟩

end Contracts

/-! ### Bindings that are asked -/

section Elements

variable {element provided : TypeExpr} {tag : Option Tag} {seen : List BindingId} {c : Contract}
  {id : BindingId} {rest contracts : List (Contract × BindingId)}

/-- The first contract listed leads to an element exactly when its binding has none yet and it
fits. -/
theorem elements_cons_cases (element provided : TypeExpr) (tag : Option Tag)
    (seen : List BindingId) (c : Contract) (id : BindingId) (rest : List (Contract × BindingId)) :
    (elements element provided tag seen ((c, id) :: rest) =
        elements element provided tag seen rest ∧ (id ∈ seen ∨ ¬ c.Fits provided tag)) ∨
      ∃ s, elements element provided tag seen ((c, id) :: rest) =
          ⟨⟨⟨element, c.tag⟩, some ⟨id, s, provided⟩⟩, .eager⟩ ::
            elements element provided tag (id :: seen) rest ∧
        id ∉ seen ∧ c.Fits provided tag := by
  simp only [elements, fits_iff]
  split
  · next hseen => exact .inl ⟨rfl, .inl hseen⟩
  · next hnew =>
    split
    · next htag => exact .inl ⟨rfl, .inr fun h => Bool.false_ne_true (h.1.symm.trans htag)⟩
    · next htag =>
      split
      · next s hs =>
        exact .inr ⟨s, rfl, hnew, Bool.eq_false_iff.mpr htag, by rw [hs]; rfl⟩
      · next hnone => exact .inl ⟨rfl, .inr fun h => by simp [hnone] at h⟩

/-- The bindings that are asked are those that are new and listed with a contract that fits. -/
theorem mem_pinnedBindings_elements :
    id ∈ pinnedBindings (elements element provided tag seen contracts) ↔
      id ∉ seen ∧ ∃ c, (c, id) ∈ contracts ∧ c.Fits provided tag := by
  induction contracts generalizing seen with
  | nil => simp [elements, pinnedBindings]
  | cons first rest ih =>
    obtain ⟨c, first⟩ := first
    rcases elements_cons_cases element provided tag seen c first rest with
      ⟨heq, hpassed⟩ | ⟨s, heq, hnew, hfits⟩
    · rw [heq, ih]
      refine and_congr_right fun hid => ?_
      constructor
      · rintro ⟨c', hc', hfits⟩
        exact ⟨c', List.mem_cons_of_mem _ hc', hfits⟩
      · rintro ⟨c', hc', hfits⟩
        rcases List.mem_cons.mp hc' with hsame | hc'
        · cases hsame
          exact (hpassed.elim hid (· hfits)).elim
        · exact ⟨c', hc', hfits⟩
    · have hcons : id ∈ pinnedBindings (elements element provided tag seen ((c, first) :: rest)) ↔
          id = first ∨
            id ∈ pinnedBindings (elements element provided tag (first :: seen) rest) := by
        simp [heq, pinnedBindings]
      rw [hcons, ih]
      by_cases hid : id = first
      · subst hid
        exact iff_of_true (.inl rfl) ⟨hnew, c, List.mem_cons_self, hfits⟩
      · simp [hid]

/-- Bindings are asked in the order in which they are listed. -/
theorem pinnedBindings_elements_sublist (element provided : TypeExpr) (tag : Option Tag)
    (seen : List BindingId) (contracts : List (Contract × BindingId)) :
    (pinnedBindings (elements element provided tag seen contracts)).Sublist
      (contracts.map Prod.snd) := by
  induction contracts generalizing seen with
  | nil => exact List.Sublist.refl _
  | cons first rest ih =>
    obtain ⟨c, first⟩ := first
    rcases elements_cons_cases element provided tag seen c first rest with ⟨heq, -⟩ | ⟨s, heq, -⟩
    · rw [heq]
      exact (ih seen).cons first
    · rw [heq]
      exact (ih (first :: seen)).cons_cons first

/-- No binding is asked twice. -/
theorem nodup_pinnedBindings_elements (element provided : TypeExpr) (tag : Option Tag)
    (seen : List BindingId) (contracts : List (Contract × BindingId)) :
    (pinnedBindings (elements element provided tag seen contracts)).Nodup := by
  induction contracts generalizing seen with
  | nil => exact List.nodup_nil
  | cons first rest ih =>
    obtain ⟨c, first⟩ := first
    rcases elements_cons_cases element provided tag seen c first rest with ⟨heq, -⟩ | ⟨s, heq, -⟩
    · rw [heq]
      exact ih seen
    · rw [heq]
      refine List.nodup_cons.mpr ⟨fun hmem => ?_, ih (first :: seen)⟩
      exact (mem_pinnedBindings_elements.mp hmem).1 List.mem_cons_self

end Elements

/-! ### Elements of a collection -/

variable {r : Resolver} {element : TypeExpr} {tag : Option Tag} {d : Dependency}

/-- The bindings that a collection asks ascend: contracts of one binding stand together, and no more
than one of them leads to an element. -/
theorem pairwise_pinnedBindings_aggregate (r : Resolver) (element : TypeExpr) (tag : Option Tag) :
    (pinnedBindings (r.aggregate element tag)).Pairwise (· < ·) := by
  have hascending : (pinnedBindings (r.aggregate element tag)).Pairwise (· ≤ ·) :=
    (List.pairwise_map.mpr r.table.pairwise_activeContracts).sublist
      (pinnedBindings_elements_sublist _ _ _ _ _)
  exact (hascending.and (nodup_pinnedBindings_elements _ _ _ _ _)).imp fun h =>
    Nat.lt_of_le_of_ne h.1 h.2

/-- A collection asks exactly the bindings that are active for a contract that fits. -/
theorem mem_pinnedBindings_aggregate {id : BindingId} :
    id ∈ pinnedBindings (r.aggregate element tag) ↔ ∃ declared,
      r.table.active? declared = some id ∧ declared.Fits (providedType r.shapes element) tag := by
  simp [aggregate, mem_pinnedBindings_elements, Table.mem_activeContracts]

/-- An element is asked for at once, from a binding that is active for a contract that fits, under
choices that make its type what is gathered. -/
theorem mem_aggregate (h : d ∈ r.aggregate element tag) : ∃ declared id s,
    d = ⟨⟨⟨element, declared.tag⟩, some ⟨id, s, providedType r.shapes element⟩⟩, .eager⟩ ∧
      r.table.active? declared = some id ∧
      declared.Fits (providedType r.shapes element) tag ∧
      declared.type.substitute s = providedType r.shapes element := by
  obtain ⟨declared, id, s, hactive, htag, hs, rfl⟩ := mem_elements h
  refine ⟨declared, id, s, rfl, Table.mem_activeContracts.mp hactive, ?_,
    substitute_of_provides? hs⟩
  exact fits_iff.mpr ⟨htag, by rw [hs]; rfl⟩

/-- A request that is answered by a collection is free, and its type has an element. -/
theorem aggregate_of_resolve {request : Request} {dependencies : List Dependency}
    {providerArgs : List TypeExpr}
    (h : r.resolve request = .synthesized .aggregate dependencies providerArgs) :
    ∃ element, request.contract.type.args.head? = some element ∧
      dependencies = r.aggregate element request.contract.tag := by
  cases synthesizes_of_resolve h with
  | aggregate free args => exact ⟨_, by rw [args]; rfl, rfl⟩
  | later wraps => cases wraps <;> contradiction

/-- A collection that answers a free request asks exactly the bindings that are active for a
contract that fits, each once and by ascending number. Each element is asked for at once, from one
of these bindings, under choices that make the type of such a contract what is gathered. -/
theorem collection_exact {request : Contract} {dependencies : List Dependency}
    {providerArgs : List TypeExpr}
    (h : r.resolve (.free request) = .synthesized .aggregate dependencies providerArgs) :
    ∃ element provided, request.type.args.head? = some element ∧
      r.shapes.Gathers element provided ∧
      (pinnedBindings dependencies).Pairwise (· < ·) ∧
      (∀ id, id ∈ pinnedBindings dependencies ↔ ∃ declared,
        r.table.active? declared = some id ∧ declared.Fits provided request.tag) ∧
      ∀ d ∈ dependencies, d.timing = .eager ∧ ∃ declared id s,
        d.request = ⟨⟨element, declared.tag⟩, some ⟨id, s, provided⟩⟩ ∧
        r.table.active? declared = some id ∧ declared.Fits provided request.tag ∧
        declared.type.substitute s = provided := by
  obtain ⟨element, helement, rfl⟩ := aggregate_of_resolve h
  refine ⟨element, providedType r.shapes element, helement, Shapes.gathers_providedType _ _,
    pairwise_pinnedBindings_aggregate _ _ _, fun id => mem_pinnedBindings_aggregate,
    fun d hd => ?_⟩
  obtain ⟨declared, id, s, rfl, hactive, hfits, hs⟩ := mem_aggregate hd
  exact ⟨rfl, declared, id, s, rfl, hactive, hfits, hs⟩

/-- A setup with boxes of which some answer several contracts, patterns and tags; the second takes
one of the contracts of the first. -/
def boxes : Setup :=
  let box := fun part => TypeExpr.named "IBox" [part]
  let binding := fun (name : String) (contracts : List ContractSpec) =>
    { contracts, lifetime := none
      recipe := .construct (.named name []) none [⟨[], none⟩]
      scope := none, disposable := false, location := .unknown : Binding }
  { name := "Composition", kind := .exposed
    bindings :=
      [binding "Box" [⟨box (.marker "TT"), [.any]⟩, ⟨box (.named "int" []), [.value "a"]⟩],
        binding "IntBox" [⟨box (.named "int" []), [.value "a"]⟩],
        binding "PlainBox" [⟨box (.named "int" []), []⟩],
        binding "TaggedBox" [⟨box (.marker "TT"), [.value "a", .unique]⟩]]
    roots := [], dependsOn := [], defaultLifetime := none, hints := .empty, markers := []
    members := [], location := .unknown }

/-- A collection of lazy boxes under a tag asks the boxes that fit by that tag or by every tag, the
first of them though it lost the contract that names the box itself. -/
theorem collection_exact_boxes :
    let r : Resolver := ⟨.ofSetups "Composition" .empty [boxes], .builtin⟩
    let box := TypeExpr.named "IBox" [.named "int" []]
    let request : Contract := ⟨.named "IEnumerable" [.named "Lazy" [box]], some (.value "a")⟩
    ∃ dependencies, r.resolve (.free request) = .synthesized .aggregate dependencies [] ∧
      pinnedBindings dependencies = [0, 1, 3] ∧
      (∃ declared, r.table.active? declared = some 0 ∧ declared.Fits box request.tag) ∧
      ¬ ∃ declared, r.table.active? declared = some 2 ∧ declared.Fits box request.tag := by
  intro r box request
  have hresolve : r.resolve (.free request) =
      .synthesized .aggregate (r.aggregate (.named "Lazy" [box]) request.tag) [] := by
    decide +kernel
  have hpinned : pinnedBindings (r.aggregate (.named "Lazy" [box]) request.tag) = [0, 1, 3] := by
    decide +kernel
  obtain ⟨element, provided, helement, hgathers, -, hasked, -⟩ := collection_exact hresolve
  cases helement
  have hlazy : r.shapes.lookup (.named "Lazy" [box]) = some .lazy := by decide +kernel
  have hprovided : provided = box := by
    cases hgathers with
    | wrapped _ _ last => exact (Option.some.inj last).symm
    | plain shape => cases shape _ hlazy
  subst hprovided
  refine ⟨_, hresolve, hpinned, (hasked 0).mp ?_, fun h => ?_⟩
  · rw [hpinned]
    decide
  · have hmem := (hasked 2).mpr h
    rw [hpinned] at hmem
    exact absurd hmem (by decide)

/-! ### From an element to its binding -/

/-- Whether a request leads to the binding of a pin: at once, or through a wrapper for which nothing
else is needed. -/
inductive Reaches (r : Resolver) (request : Request) (pin : Pin) : Prop
  /-- The binding answers the request. -/
  | direct (answer : r.resolve request = .binding pin.binding pin.substitution)
  /-- The binding answers the request for what the wrapper holds. -/
  | wrapped {strategy : Strategy} {part : Dependency} {providerArgs : List TypeExpr}
      (wraps : strategy.wraps = true)
      (whole : r.resolve request = .synthesized strategy [part] providerArgs)
      (answer : r.resolve part.request = .binding pin.binding pin.substitution)

/-- A pin answers exactly the requests for its type. -/
theorem resolve_pinned_eq_binding_iff {contract : Contract} {pin : Pin} :
    r.resolve ⟨contract, some pin⟩ = .binding pin.binding pin.substitution ↔
      pin.type = contract.type := by
  simp only [resolve]
  split
  · next htype => exact iff_of_true rfl htype
  · next htype => exact iff_of_false synthesize_ne_binding htype

/-- A wrapper is made from its result, if it is a function, and else from its first argument. -/
theorem synthesize_of_wraps (request : Request) {strategy : Strategy}
    (hshape : r.shapes.lookup request.contract.type = some strategy)
    (hwraps : strategy.wraps = true) :
    ∃ part timing providerArgs,
      (if strategy = .func then request.contract.type.args.getLast?
        else request.contract.type.args.head?) = some part ∧
      r.synthesize request = .synthesized strategy [carry request timing part] providerArgs := by
  obtain ⟨first, rest, hargs⟩ := List.exists_cons_of_ne_nil (Shapes.args_ne_nil hshape hwraps)
  have hlast := List.getLast?_eq_some_getLast (Shapes.args_ne_nil hshape hwraps)
  cases strategy with
  | func =>
    refine ⟨_, .deferred, request.contract.type.args.dropLast, hlast, ?_⟩
    simp only [synthesize, hshape, hlast]
  | lazy | threadLocal | completed =>
    exact ⟨first, _, _, by rw [hargs]; rfl, by simp only [synthesize, hshape, hargs]; rfl⟩
  | aggregate | tuple => cases hwraps

/-- A wrapper leads to a binding exactly when the pin is for what the wrapper is made from. -/
theorem reaches_iff_of_wraps {contract : Contract} {pin : Pin} {strategy : Strategy}
    (hshape : r.shapes.lookup contract.type = some strategy) (hwraps : strategy.wraps = true)
    (hother : pin.type ≠ contract.type) :
    r.resolve ⟨contract, some pin⟩ ≠ .unresolved ∧
      (r.Reaches ⟨contract, some pin⟩ pin ↔
        (if strategy = .func then contract.type.args.getLast? else contract.type.args.head?) =
          some pin.type) := by
  obtain ⟨part, timing, providerArgs, hpart, hwhole⟩ :=
    synthesize_of_wraps ⟨contract, some pin⟩ hshape hwraps
  have hresolve : r.resolve ⟨contract, some pin⟩ = .synthesized strategy
      [carry ⟨contract, some pin⟩ timing part] providerArgs := by
    rw [← hwhole]
    simp only [resolve, if_neg hother]
  refine ⟨by simp [hresolve], fun h => ?_, fun h => ?_⟩
  · cases h with
    | direct answer => cases hresolve.symm.trans answer
    | wrapped _ whole answer =>
      cases hresolve.symm.trans whole
      rw [resolve_pinned_eq_binding_iff.mp answer]
      exact hpart
  · refine .wrapped hwraps hresolve (resolve_pinned_eq_binding_iff.mpr ?_)
    exact Option.some.inj (h.symm.trans hpart)

/-- A request that is pinned to what a collection gathers is answered, and leads to the binding
unless it is for a wrapper that holds another argument than its last. The wrapper itself is not
answered by the pin, for a type is no argument of itself. -/
theorem reaches_iff_of_gathers {contract : Contract} {pin : Pin}
    (h : r.shapes.Gathers contract.type pin.type) :
    r.resolve ⟨contract, some pin⟩ ≠ .unresolved ∧
      (r.Reaches ⟨contract, some pin⟩ pin ↔ r.shapes.HoldsLast contract.type) := by
  obtain ⟨id, s, provided⟩ := pin
  cases h with
  | wrapped shape wraps last =>
    rename_i strategy
    have hother : provided ≠ contract.type := by
      rintro rfl
      exact Nat.lt_irrefl _ (TypeExpr.size_lt_of_mem_args (List.mem_of_getLast? last))
    refine (reaches_iff_of_wraps shape wraps hother).imp_right fun hreaches => hreaches.trans ?_
    dsimp only at last ⊢
    rw [← last]
    constructor
    · intro hpart other hshape _
      cases shape.symm.trans hshape
      by_cases hfunc : strategy = .func
      · exact .inl hfunc
      · rw [if_neg hfunc] at hpart
        exact .inr hpart
    · intro hholds
      split
      · rfl
      · next hfunc => exact (hholds strategy shape wraps).resolve_left hfunc
  | plain shape =>
    have hanswer : r.resolve ⟨contract, some ⟨id, s, contract.type⟩⟩ = .binding id s :=
      resolve_pinned_eq_binding_iff.mpr rfl
    refine ⟨by simp [hanswer], iff_of_true (.direct hanswer) ?_⟩
    intro strategy hshape hwraps
    exact absurd (hwraps.symm.trans (shape strategy hshape)) (by decide)

/-- Every element of a collection is answered. It leads to its binding, at once or through a single
wrapper, exactly when it is no wrapper that holds another argument than its last. -/
theorem element_reaches_iff {request : Request} {dependencies : List Dependency}
    {providerArgs : List TypeExpr}
    (h : r.resolve request = .synthesized .aggregate dependencies providerArgs) :
    ∀ d ∈ dependencies, ∃ pin, d.request.pin = some pin ∧ r.resolve d.request ≠ .unresolved ∧
      (r.Reaches d.request pin ↔ r.shapes.HoldsLast d.request.contract.type) := by
  obtain ⟨element, -, rfl⟩ := aggregate_of_resolve h
  intro d hd
  obtain ⟨declared, id, s, rfl, -⟩ := mem_aggregate hd
  exact ⟨_, rfl, reaches_iff_of_gathers (r.shapes.gathers_providedType element)⟩

/-- A setup for two parts, with a shape for finished pairs of two types. -/
def pairedParts : Resolver where
  table :=
    let binding := fun (contract name : String) =>
      { contracts := [⟨.named contract [], []⟩], lifetime := none
        recipe := .construct (.named name []) none [⟨[], none⟩]
        scope := none, disposable := false, location := .unknown : Binding }
    .ofSetups "Composition" .empty
      [{ name := "Composition", kind := .exposed, bindings := [binding "IA" "A", binding "IB" "B"]
         roots := [], dependsOn := [], defaultLifetime := none, hints := .empty, markers := []
         members := [], location := .unknown }]
  shapes := .ofRegistrations [⟨"Pair", some 2, .completed⟩]

/-- A pair of the two parts. -/
def pairOfParts : TypeExpr := .named "Pair" [.named "IA" [], .named "IB" []]

/-- The pin of a pair for the binding of its second part. -/
def secondPart : Pin := ⟨1, .empty, .named "IB" []⟩

/-- A collection of pairs has an element for the second part. -/
theorem resolve_pairedParts :
    pairedParts.resolve (.free ⟨.named "IEnumerable" [pairOfParts], none⟩) =
      .synthesized .aggregate [⟨⟨⟨pairOfParts, none⟩, some secondPart⟩, .eager⟩] [] := by
  decide +kernel

theorem lookup_pairOfParts : pairedParts.shapes.lookup pairOfParts = some .completed := by
  decide +kernel

/-- A pair does not hold its last argument. -/
theorem not_holdsLast_pairOfParts : ¬ pairedParts.shapes.HoldsLast pairOfParts := fun h =>
  absurd (h .completed lookup_pairOfParts rfl) (by decide)

/-- In a collection of pairs the pair is made, but does not lead to the binding. -/
theorem element_reaches_iff_pairedParts :
    ∃ dependencies, pairedParts.resolve (.free ⟨.named "IEnumerable" [pairOfParts], none⟩) =
      .synthesized .aggregate dependencies [] ∧ ∃ d ∈ dependencies, ∃ pin,
        d.request.pin = some pin ∧ pairedParts.resolve d.request ≠ .unresolved ∧
        ¬ pairedParts.Reaches d.request pin := by
  refine ⟨_, resolve_pairedParts, _, List.mem_singleton_self _, ?_⟩
  obtain ⟨pin, hpin, hanswered, hreaches⟩ :=
    element_reaches_iff resolve_pairedParts _ (List.mem_singleton_self _)
  exact ⟨pin, hpin, hanswered, mt hreaches.mp not_holdsLast_pairOfParts⟩

/-- An element of a collection can miss the binding that it is pinned to. -/
theorem pairedParts_not_reached :
    ¬ ∀ dependencies, pairedParts.resolve (.free ⟨.named "IEnumerable" [pairOfParts], none⟩) =
      .synthesized .aggregate dependencies [] → ∀ d ∈ dependencies, ∃ pin,
        d.request.pin = some pin ∧ pairedParts.Reaches d.request pin := by
  intro hall
  obtain ⟨pin, hpin, hreaches⟩ := hall _ resolve_pairedParts _ (List.mem_singleton_self _)
  cases hpin
  have hgathers : pairedParts.shapes.Gathers pairOfParts secondPart.type :=
    .wrapped lookup_pairOfParts rfl rfl
  exact not_holdsLast_pairOfParts ((reaches_iff_of_gathers hgathers).2.mp hreaches)

end Resolver

end Injector
