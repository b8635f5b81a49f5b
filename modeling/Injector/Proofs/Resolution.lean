import Injector.Proofs.Table.Declarations
import Injector.Resolution

/-!
# What answers a request

A request whose pin is a binding of the table is answered by a binding of the table, and the
dependencies of a synthesized value ask for parts of its type, again under such pins.
-/

namespace Injector

namespace TypeExpr

theorem size_pos (t : TypeExpr) : 0 < t.size := by
  cases t <;> simp [size]

private theorem size_le_sizeAll {t : TypeExpr} {ts : List TypeExpr} (h : t ∈ ts) :
    t.size ≤ sizeAll ts := by
  induction ts with
  | nil => cases h
  | cons u us ih =>
    rw [sizeAll]
    rcases List.mem_cons.mp h with rfl | h
    · omega
    · have hle := ih h
      omega

/-- A part of a type is smaller than the type. -/
theorem size_lt_of_mem_args {part t : TypeExpr} (h : part ∈ t.args) : part.size < t.size := by
  cases t with
  | named name args =>
    have hle : part.size ≤ sizeAll args := size_le_sizeAll h
    rw [size]
    omega
  | marker name => cases h
  | array element =>
    obtain rfl := List.mem_singleton.mp h
    rw [size]
    omega
  | tuple items =>
    have hle : part.size ≤ sizeAll items := size_le_sizeAll h
    rw [size]
    omega

end TypeExpr

namespace Table

/-- The active binding of a contract is a binding of the table that declares it. -/
theorem exists_of_active? {t : Table} {c : Contract} {id : BindingId} (h : t.active? c = some id) :
    ∃ r, t.bindings[id]? = some r ∧ c ∈ r.contracts := by
  rw [active?_eq_getLast?] at h
  exact mem_declaring.mp (List.mem_of_getLast? h)

theorem lt_of_active? {t : Table} {c : Contract} {id : BindingId} (h : t.active? c = some id) :
    id < t.bindings.length := by
  obtain ⟨r, hr, -⟩ := exists_of_active? h
  exact (List.getElem?_eq_some_iff.mp hr).1

theorem lt_of_anyTagged? {t : Table} {type : TypeExpr} {id : BindingId}
    (h : t.anyTagged? type = some id) : id < t.bindings.length := by
  rw [anyTagged?_eq_active?] at h
  exact lt_of_active? h

/-- Active contracts belong to bindings of the table. -/
theorem lt_of_mem_activeContracts {t : Table} {c : Contract} {id : BindingId}
    (h : (c, id) ∈ t.activeContracts) : id < t.bindings.length :=
  lt_of_active? (mem_activeContracts.mp h)

/-- Active contracts are declared by bindings of the table. -/
theorem exists_of_mem_activeContracts {t : Table} {c : Contract} {id : BindingId}
    (h : (c, id) ∈ t.activeContracts) : ∃ r ∈ t.bindings, c ∈ r.contracts := by
  obtain ⟨r, hr, hc⟩ := exists_of_active? (mem_activeContracts.mp h)
  exact ⟨r, List.mem_of_getElem? hr, hc⟩

end Table

/-- Whether the pin of a request, if it has one, is a binding of the table. -/
def Resolver.Admits (r : Resolver) (request : Request) : Prop :=
  ∀ pin ∈ request.pin, pin.binding < r.table.bindings.length

namespace Resolver

theorem admits_free (r : Resolver) (contract : Contract) : r.Admits (.free contract) := by
  intro pin h
  cases h

theorem lt_of_generic? {r : Resolver} {c : Contract} {id : BindingId} {s : Substitution}
    (h : r.generic? c = some (id, s)) : id < r.table.bindings.length := by
  obtain ⟨⟨declared, other⟩, hd, hs⟩ := List.exists_of_findSome?_eq_some h
  simp only at hs
  split at hs
  · obtain ⟨_, _, heq⟩ := Option.map_eq_some_iff.mp hs
    cases heq
    exact Table.lt_of_mem_activeContracts (List.mem_reverse.mp hd)
  · cases hs

/-- What a collection gathers is its element, or what the element holds. -/
theorem providedType_cases (shapes : Shapes) (element : TypeExpr) :
    element = providedType shapes element ∨
      element.args.getLast? = some (providedType shapes element) := by
  have hlast : element = element.args.getLast?.getD element ∨
      element.args.getLast? = some (element.args.getLast?.getD element) := by
    cases element.args.getLast? with
    | none => exact .inl rfl
    | some last => exact .inr rfl
  unfold providedType
  split <;> first | exact hlast | exact .inl rfl

/-- An element of a collection is asked for at once, from a binding with an active contract that
provides it and, where a tag is asked for, answers it. -/
theorem mem_elements {element provided : TypeExpr} {tag : Option Tag} {seen : List BindingId}
    {contracts : List (Contract × BindingId)} {d : Dependency}
    (h : d ∈ elements element provided tag seen contracts) :
    ∃ c id s, (c, id) ∈ contracts ∧ (tag.isSome && !Tag.answers c.tag tag) = false ∧
      provides? c.type provided = some s ∧
      d = ⟨⟨⟨element, c.tag⟩, some ⟨id, s, provided⟩⟩, .eager⟩ := by
  induction contracts generalizing seen with
  | nil => cases h
  | cons c rest ih =>
    have hrest : ∀ {seen}, d ∈ elements element provided tag seen rest →
        ∃ c' id s, (c', id) ∈ c :: rest ∧ (tag.isSome && !Tag.answers c'.tag tag) = false ∧
          provides? c'.type provided = some s ∧
          d = ⟨⟨⟨element, c'.tag⟩, some ⟨id, s, provided⟩⟩, .eager⟩ := by
      intro seen h
      obtain ⟨c', id, s, hc', heq⟩ := ih h
      exact ⟨c', id, s, List.mem_cons_of_mem _ hc', heq⟩
    rw [elements] at h
    split at h
    · exact hrest h
    · split at h
      · exact hrest h
      · next htag =>
        split at h
        · next s hs =>
          rcases List.mem_cons.mp h with rfl | h
          · exact ⟨c.1, c.2, s, List.mem_cons_self, Bool.eq_false_iff.mpr htag, hs, rfl⟩
          · exact hrest h
        · exact hrest h

/-- Whether the shape of a type gives a request a value by a strategy, and with which
dependencies. -/
inductive Synthesizes (r : Resolver) (request : Request) : Strategy → List Dependency → Prop
  /-- A collection gathers its elements from the bindings; it has no pin. -/
  | aggregate {element : TypeExpr} {rest : List TypeExpr} (free : request.pin = none)
      (args : request.contract.type.args = element :: rest) :
      Synthesizes r request .aggregate (r.aggregate element request.contract.tag)
  /-- A provider makes its result when it is called. -/
  | func {result : TypeExpr} (args : request.contract.type.args.getLast? = some result) :
      Synthesizes r request .func [carry request .deferred result]
  /-- A tuple has its items; it has no pin. -/
  | tuple (free : request.pin = none) :
      Synthesizes r request .tuple
        (request.contract.type.args.map fun type => ⟨.free ⟨type, none⟩, .eager⟩)
  /-- A finished task holds its value. -/
  | completed {part : TypeExpr} {rest : List TypeExpr}
      (args : request.contract.type.args = part :: rest) :
      Synthesizes r request .completed [carry request .eager part]
  /-- Any other wrapper makes its value when it is used. -/
  | later {strategy : Strategy} {part : TypeExpr} {rest : List TypeExpr}
      (wraps : strategy = .lazy ∨ strategy = .threadLocal)
      (args : request.contract.type.args = part :: rest) :
      Synthesizes r request strategy [carry request .deferred part]

/-- The shape of the type tells how a value is synthesized. -/
theorem synthesize_eq {r : Resolver} {request : Request} {strategy : Strategy}
    {dependencies : List Dependency} {providerArgs : List TypeExpr}
    (h : r.synthesize request = .synthesized strategy dependencies providerArgs) :
    r.shapes.lookup request.contract.type = some strategy ∧
      providerArgs = (if strategy = .func then request.contract.type.args.dropLast else []) ∧
      r.Synthesizes request strategy dependencies := by
  simp only [synthesize] at h
  split at h
  · cases h
  · next hshape =>
    split at h
    · next hfree hargs =>
      cases h
      exact ⟨hshape, rfl, .aggregate hfree hargs⟩
    · cases h
  · next hshape =>
    split at h
    · next hlast =>
      cases h
      exact ⟨hshape, rfl, .func hlast⟩
    · cases h
  · next hshape =>
    split at h
    · cases h
    · next hfree =>
      cases h
      exact ⟨hshape, rfl, .tuple (by simpa using hfree)⟩
  · next strategy haggregate hfunc htuple hshape =>
    split at h
    · next hargs =>
      cases h
      refine ⟨hshape, (if_neg hfunc).symm, ?_⟩
      cases strategy with
      | aggregate => exact absurd rfl haggregate
      | func => exact absurd rfl hfunc
      | tuple => exact absurd rfl htuple
      | completed => exact .completed hargs
      | lazy => exact .later (.inl rfl) hargs
      | threadLocal => exact .later (.inr rfl) hargs
    · cases h

/-- A shape is not answered by a binding. -/
theorem synthesize_ne_binding {r : Resolver} {request : Request} {id : BindingId}
    {s : Substitution} : r.synthesize request ≠ .binding id s := by
  intro h
  simp only [synthesize] at h
  repeat' split at h
  all_goals cases h

/-- What answers a request: a binding of the table, or the shape of its type. -/
theorem resolve_cases {r : Resolver} {request : Request} (hpin : r.Admits request) :
    (∃ id s, r.resolve request = .binding id s ∧ id < r.table.bindings.length) ∨
      r.resolve request = r.synthesize request := by
  unfold resolve
  split
  · next pin hp =>
    split
    · exact .inl ⟨_, _, rfl, hpin pin hp⟩
    · exact .inr rfl
  · split
    · next hactive => exact .inl ⟨_, _, rfl, Table.lt_of_active? hactive⟩
    · split
      · next hany => exact .inl ⟨_, _, rfl, Table.lt_of_anyTagged? hany⟩
      · split
        · next hgeneric => exact .inl ⟨_, _, rfl, lt_of_generic? hgeneric⟩
        · exact .inr rfl

/-- A request that a binding answers is answered by one of the table. -/
theorem lt_of_resolve_binding {r : Resolver} {request : Request} {id : BindingId}
    {s : Substitution} (hpin : r.Admits request) (h : r.resolve request = .binding id s) :
    id < r.table.bindings.length := by
  rcases resolve_cases hpin with ⟨_, _, heq, hlt⟩ | hshape
  · obtain ⟨rfl, -⟩ := Resolution.binding.inj (heq.symm.trans h)
    exact hlt
  · exact absurd (hshape.symm.trans h) synthesize_ne_binding

/-- A synthesized answer is that of the shape. -/
theorem synthesize_of_resolve {r : Resolver} {request : Request} {strategy : Strategy}
    {dependencies : List Dependency} {providerArgs : List TypeExpr}
    (h : r.resolve request = .synthesized strategy dependencies providerArgs) :
    r.synthesize request = .synthesized strategy dependencies providerArgs := by
  unfold resolve at h
  split at h
  · split at h
    · cases h
    · exact h
  · split at h
    · cases h
    · split at h
      · cases h
      · split at h
        · cases h
        · exact h

theorem synthesizes_of_resolve {r : Resolver} {request : Request} {strategy : Strategy}
    {dependencies : List Dependency} {providerArgs : List TypeExpr}
    (h : r.resolve request = .synthesized strategy dependencies providerArgs) :
    r.Synthesizes request strategy dependencies :=
  (synthesize_eq (synthesize_of_resolve h)).2.2

/-- What a synthesized value needs is asked for by parts of its type. -/
theorem mem_dependencies {r : Resolver} {request : Request} {strategy : Strategy}
    {dependencies : List Dependency} {providerArgs : List TypeExpr} (hpin : r.Admits request)
    (h : r.resolve request = .synthesized strategy dependencies providerArgs) {d : Dependency}
    (hd : d ∈ dependencies) :
    r.Admits d.request ∧ d.request.contract.type ∈ request.contract.type.args := by
  cases synthesizes_of_resolve h with
  | aggregate free args =>
    obtain ⟨c, id, s, hc, -, -, rfl⟩ := mem_elements hd
    refine ⟨fun pin hpin => ?_, by simp [args]⟩
    cases hpin
    exact Table.lt_of_mem_activeContracts hc
  | func args =>
    obtain rfl := List.mem_singleton.mp hd
    exact ⟨hpin, List.mem_of_getLast? args⟩
  | tuple =>
    obtain ⟨type, htype, rfl⟩ := List.mem_map.mp hd
    exact ⟨r.admits_free _, htype⟩
  | completed args | later _ args =>
    obtain rfl := List.mem_singleton.mp hd
    exact ⟨hpin, by simp [carry, args]⟩

/-- A part is pinned as the whole is, or to a binding with an active contract that provides it. -/
theorem pin_of_mem_dependencies {r : Resolver} {request : Request} {strategy : Strategy}
    {dependencies : List Dependency} {providerArgs : List TypeExpr}
    (h : r.resolve request = .synthesized strategy dependencies providerArgs) {d : Dependency}
    (hd : d ∈ dependencies) {pin : Pin} (hpin : d.request.pin = some pin) :
    request.pin = some pin ∨ ∃ c provided, (c, pin.binding) ∈ r.table.activeContracts ∧
      provides? c.type provided = some pin.substitution := by
  cases synthesizes_of_resolve h with
  | aggregate =>
    obtain ⟨c, id, s, hc, -, hprovides, rfl⟩ := mem_elements hd
    cases hpin
    exact .inr ⟨c, _, hc, hprovides⟩
  | tuple =>
    obtain ⟨type, -, rfl⟩ := List.mem_map.mp hd
    cases hpin
  | func | completed | later =>
    obtain rfl := List.mem_singleton.mp hd
    exact .inl hpin

/-- A dependency that is made later is the only one of its value. -/
theorem eq_singleton_of_deferred {r : Resolver} {request : Request} {strategy : Strategy}
    {dependencies : List Dependency} {providerArgs : List TypeExpr}
    (h : r.resolve request = .synthesized strategy dependencies providerArgs) {d : Dependency}
    (hd : d ∈ dependencies) (htiming : d.timing = .deferred) : dependencies = [d] := by
  cases synthesizes_of_resolve h with
  | aggregate =>
    obtain ⟨c, id, s, -, -, -, rfl⟩ := mem_elements hd
    cases htiming
  | tuple =>
    obtain ⟨type, -, rfl⟩ := List.mem_map.mp hd
    cases htiming
  | func | completed | later => rw [List.mem_singleton.mp hd]

/-- What a shape gives depends on the contract alone, but for what it depends on. -/
theorem synthesized_unique {r : Resolver} {request request' : Request}
    {strategy strategy' : Strategy} {dependencies dependencies' : List Dependency}
    {providerArgs providerArgs' : List TypeExpr}
    (h : r.resolve request = .synthesized strategy dependencies providerArgs)
    (h' : r.resolve request' = .synthesized strategy' dependencies' providerArgs')
    (hcontract : request.contract = request'.contract) :
    strategy = strategy' ∧ providerArgs = providerArgs' := by
  obtain ⟨hshape, hargs, -⟩ := synthesize_eq (synthesize_of_resolve h)
  obtain ⟨hshape', hargs', -⟩ := synthesize_eq (synthesize_of_resolve h')
  rw [hcontract] at hshape hargs
  obtain rfl := Option.some.inj (hshape.symm.trans hshape')
  exact ⟨rfl, hargs.trans hargs'.symm⟩

end Resolver

end Injector
