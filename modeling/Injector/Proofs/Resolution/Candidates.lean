import Injector.Proofs.Resolution
import Injector.Proofs.TypeExpr.Unification

/-!
# Which contract answers a request

Several active contracts may fit a request that is free to reach any binding. The main statement is
that a binding answers it exactly when some contract fits, and that of those that fit the one that
names the request most closely is taken, and the latest binding where several do so by patterns.
-/

namespace Injector

namespace TypeExpr

/-- A type is the requested one or a pattern that matches it exactly when some choices make it the
requested one. -/
theorem eq_or_unify_iff {declared requested : TypeExpr} :
    (declared = requested ∨ declared.containsMarker = true ∧
      (declared.unify requested).isSome = true) ↔ ∃ s, declared.substitute s = requested := by
  constructor
  · rintro (rfl | ⟨-, h⟩)
    · exact ⟨.empty, declared.substitute_empty⟩
    · exact unify_isSome_iff.mp h
  · intro h
    cases hmarker : declared.containsMarker with
    | true => exact .inr ⟨rfl, unify_isSome_iff.mpr h⟩
    | false =>
      obtain ⟨s, hs⟩ := h
      exact .inl (substitute_of_not_containsMarker declared hmarker ▸ hs)

end TypeExpr

theorem Tag.answers_iff {declared requested : Option Tag} :
    Tag.answers declared requested = true ↔ declared = requested ∨ declared = some .any := by
  simp [Tag.answers]

/-- Whether a binding is active for a contract that fits a request. -/
structure Table.Answers (t : Table) (request declared : Contract) (id : BindingId) : Prop where
  /-- The binding is the active one of the contract. -/
  active : t.active? declared = some id
  /-- The contract has the requested tag or answers every tag. -/
  tag : declared.tag = request.tag ∨ declared.tag = some .any
  /-- The contract has the requested type or a pattern that matches it. -/
  type : declared.type = request.type ∨
    declared.type.containsMarker = true ∧ (declared.type.unify request.type).isSome = true

/-- How closely a contract names what is requested: the very contract, its type under every tag, or
nothing but a pattern of its type. -/
def Contract.closeness (request declared : Contract) : Nat :=
  if declared = request then 2
  else if declared = ⟨request.type, some .any⟩ then 1
  else 0

namespace Contract

variable {request declared : Contract}

/-- A contract without the requested type is no closer than by a pattern. -/
theorem type_eq_of_closeness_pos (h : 0 < request.closeness declared) :
    declared.type = request.type := by
  unfold closeness at h
  split at h
  · next heq => rw [heq]
  · split at h
    · next heq => rw [heq]
    · exact absurd h (Nat.lt_irrefl 0)

end Contract

/-- Whether a binding answers a request by a contract that no other one that fits comes before. -/
structure Table.Prefers (t : Table) (request declared : Contract) (id : BindingId) : Prop
    extends t.Answers request declared id where
  /-- What fits too names the request less closely, or is no later binding that names it as
  closely. -/
  foremost : ∀ declared' id', t.Answers request declared' id' →
    request.closeness declared' < request.closeness declared ∨
      request.closeness declared' = request.closeness declared ∧ id' ≤ id

namespace Table

variable {t : Table} {request declared : Contract} {id : BindingId}

theorem answers_iff : t.Answers request declared id ↔ t.active? declared = some id ∧
    (declared.tag = request.tag ∨ declared.tag = some .any) ∧
      ∃ s, declared.type.substitute s = request.type := by
  rw [← TypeExpr.eq_or_unify_iff]
  exact ⟨fun h => ⟨h.active, h.tag, h.type⟩, fun h => ⟨h.1, h.2.1, h.2.2⟩⟩

/-- An active contract of the requested type under the requested tag or every tag fits. -/
theorem Answers.of_type_eq (hactive : t.active? declared = some id)
    (htag : declared.tag = request.tag ∨ declared.tag = some .any)
    (htype : declared.type = request.type) : t.Answers request declared id :=
  ⟨hactive, htag, .inl htype⟩

/-- What has the requested type and fits is the very contract, or answers every tag. -/
theorem Answers.eq_of_type_eq (h : t.Answers request declared id)
    (htype : declared.type = request.type) :
    declared = request ∨ declared = ⟨request.type, some .any⟩ := by
  obtain ⟨type, tag⟩ := declared
  obtain rfl : type = request.type := htype
  exact h.tag.imp (fun (htag : tag = request.tag) => htag ▸ rfl)
    fun (htag : tag = some .any) => htag ▸ rfl

/-- The very contract is preferred. -/
theorem Prefers.of_exact (h : t.active? request = some id) : t.Prefers request request id := by
  refine ⟨.of_type_eq h (.inl rfl) rfl, fun declared' id' h' => ?_⟩
  have hself : request.closeness request = 2 := if_pos rfl
  by_cases heq : declared' = request
  · subst heq
    cases h.symm.trans h'.active
    exact .inr ⟨rfl, Nat.le_refl id⟩
  · refine .inl ?_
    rw [hself, Contract.closeness, if_neg heq]
    split <;> decide

/-- Next comes the contract that answers every tag of the type. -/
theorem Prefers.of_any (hexact : t.active? request = none)
    (h : t.active? ⟨request.type, some .any⟩ = some id) :
    t.Prefers request ⟨request.type, some .any⟩ id := by
  refine ⟨.of_type_eq h (.inr rfl) rfl, fun declared' id' h' => ?_⟩
  have hother : ∀ {declared other}, t.active? declared = some other → declared ≠ request := by
    rintro declared other hactive rfl
    cases hexact.symm.trans hactive
  have hself : request.closeness ⟨request.type, some .any⟩ = 1 := by
    rw [Contract.closeness, if_neg (hother h), if_pos rfl]
  by_cases heq : declared' = ⟨request.type, some .any⟩
  · subst heq
    cases h.symm.trans h'.active
    exact .inr ⟨rfl, Nat.le_refl id⟩
  · refine .inl ?_
    rw [hself, Contract.closeness, if_neg (hother h'.active), if_neg heq]
    decide

end Table

namespace Resolver

variable {r : Resolver} {request : Contract} {id : BindingId}

/-- What a single active contract gives a request that only patterns answer. -/
private def patternAnswer? (request : Contract) (d : Contract × BindingId) :
    Option (BindingId × Substitution) :=
  if d.1.type.containsMarker && Tag.answers d.1.tag request.tag then
    (d.1.type.unify request.type).map fun s => (d.2, s)
  else none

private theorem generic?_eq (r : Resolver) (request : Contract) :
    r.generic? request = r.table.activeContracts.reverse.findSome? (patternAnswer? request) := rfl

private theorem patternAnswer?_eq_some {d : Contract × BindingId} {s : Substitution} :
    patternAnswer? request d = some (id, s) ↔ d.2 = id ∧ d.1.type.containsMarker = true ∧
      (d.1.tag = request.tag ∨ d.1.tag = some .any) ∧ d.1.type.unify request.type = some s := by
  unfold patternAnswer?
  split
  · next h =>
    obtain ⟨hmarker, htag⟩ := Bool.and_eq_true_iff.mp h
    rw [Option.map_eq_some_iff]
    constructor
    · rintro ⟨s', hs', heq⟩
      cases heq
      exact ⟨rfl, hmarker, Tag.answers_iff.mp htag, hs'⟩
    · rintro ⟨rfl, -, -, hs⟩
      exact ⟨s, hs, rfl⟩
  · next h =>
    refine iff_of_false (fun h => nomatch h) fun ⟨_, hmarker, htag, _⟩ => h ?_
    rw [hmarker, Tag.answers_iff.mpr htag]
    rfl

/-- An active contract that fits only by a pattern gives an answer. -/
private theorem exists_patternAnswer? {declared : Contract}
    (h : r.table.Answers request declared id) (htype : declared.type ≠ request.type) :
    ∃ s, patternAnswer? request (declared, id) = some (id, s) := by
  obtain ⟨hmarker, hunify⟩ := h.type.resolve_left htype
  obtain ⟨s, hs⟩ := Option.isSome_iff_exists.mp hunify
  exact ⟨s, patternAnswer?_eq_some.mpr ⟨rfl, hmarker, h.tag, hs⟩⟩

section Patterns

variable (hexact : r.table.active? request = none)
  (hany : r.table.active? ⟨request.type, some .any⟩ = none)

include hexact hany

/-- Where neither the very contract nor its type under every tag is declared, what fits does so by
a pattern. -/
private theorem type_ne_of_answers {declared : Contract} (h : r.table.Answers request declared id) :
    declared.type ≠ request.type := by
  intro htype
  rcases h.eq_of_type_eq htype with rfl | rfl
  · cases hexact.symm.trans h.active
  · cases hany.symm.trans h.active

/-- The generic binding that is found is the latest that fits. -/
private theorem prefers_of_generic? {s : Substitution} (h : r.generic? request = some (id, s)) :
    ∃ declared, r.table.Prefers request declared id ∧
      declared.type.substitute s = request.type := by
  rw [generic?_eq, List.findSome?_eq_some_iff] at h
  obtain ⟨later, ⟨declared, other⟩, earlier, hcontracts, hfound, hlater⟩ := h
  obtain ⟨rfl, hmarker, htag, hs⟩ := patternAnswer?_eq_some.mp hfound
  have hcontracts : r.table.activeContracts =
      earlier.reverse ++ (declared, other) :: later.reverse := by
    have := congrArg List.reverse hcontracts
    simpa using this
  have hactive : (declared, other) ∈ r.table.activeContracts := by simp [hcontracts]
  have hanswers : r.table.Answers request declared other :=
    ⟨Table.mem_activeContracts.mp hactive, htag, .inr ⟨hmarker, by rw [hs]; rfl⟩⟩
  refine ⟨declared, ⟨hanswers, fun declared' id' h' => .inr ?_⟩, TypeExpr.substitute_of_unify hs⟩
  have hdistant : ∀ {declared id}, r.table.Answers request declared id →
      request.closeness declared = 0 := by
    intro declared id h
    refine Nat.eq_zero_of_not_pos fun hpos => ?_
    exact type_ne_of_answers hexact hany h (Contract.type_eq_of_closeness_pos hpos)
  refine ⟨(hdistant h').trans (hdistant hanswers).symm, ?_⟩
  have hmem := Table.mem_activeContracts.mpr h'.active
  rw [hcontracts, List.mem_append, List.mem_cons] at hmem
  rcases hmem with hmem | heq | hmem
  · have hsorted := r.table.pairwise_activeContracts
    rw [hcontracts, List.pairwise_append] at hsorted
    exact hsorted.2.2 _ hmem _ List.mem_cons_self
  · cases heq
    exact Nat.le_refl _
  · obtain ⟨s', hs'⟩ := exists_patternAnswer? h' (type_ne_of_answers hexact hany h')
    cases (hlater _ (List.mem_reverse.mp hmem)).symm.trans hs'

/-- Where no generic binding is found nothing fits. -/
private theorem not_answers_of_generic? (h : r.generic? request = none) (declared : Contract) :
    ¬ r.table.Answers request declared id := by
  intro hanswers
  obtain ⟨s, hs⟩ := exists_patternAnswer? hanswers (type_ne_of_answers hexact hany hanswers)
  have hmem := List.mem_reverse.mpr (Table.mem_activeContracts.mpr hanswers.active)
  rw [generic?_eq, List.findSome?_eq_none_iff] at h
  cases (h _ hmem).symm.trans hs

end Patterns

/-- A free request is answered by the active binding of the contract that is preferred, under
choices that make its type the requested one, or by the shape of its type where nothing fits. -/
theorem resolve_free_cases (r : Resolver) (request : Contract) :
    (∃ id s declared, r.resolve (.free request) = .binding id s ∧
      r.table.Prefers request declared id ∧ declared.type.substitute s = request.type) ∨
    r.resolve (.free request) = r.synthesize (.free request) ∧
      ∀ declared id, ¬ r.table.Answers request declared id := by
  simp only [resolve, Request.free]
  split
  · next id hexact =>
    exact .inl ⟨id, _, request, rfl, .of_exact hexact, request.type.substitute_empty⟩
  · next hexact =>
    split
    · next id hany =>
      rw [Table.anyTagged?_eq_active?] at hany
      exact .inl ⟨id, _, _, rfl, .of_any hexact hany, request.type.substitute_empty⟩
    · next hany =>
      rw [Table.anyTagged?_eq_active?] at hany
      split
      · next id s hgeneric =>
        obtain ⟨declared, hprefers, hs⟩ := prefers_of_generic? hexact hany hgeneric
        exact .inl ⟨id, s, declared, rfl, hprefers, hs⟩
      · next hgeneric =>
        exact .inr ⟨rfl, fun declared id => not_answers_of_generic? hexact hany hgeneric declared⟩

/-- A free request is answered by a binding exactly when some active contract fits, and then by that
of the contract that is preferred, under choices that make its type the requested one; no contract
with a unique tag answers a request without a tag. A contract fits when it may answer the tag and
any choices make its type the requested one. -/
theorem resolve_free (r : Resolver) (request : Contract) :
    (∀ id s, r.resolve (.free request) = .binding id s → ∃ declared,
      r.table.Prefers request declared id ∧ declared.type.substitute s = request.type ∧
        (request.tag = none → ∀ number, declared.tag ≠ some (.unique number))) ∧
    ((∀ id s, r.resolve (.free request) ≠ .binding id s) ↔
      ∀ declared id, ¬ r.table.Answers request declared id) ∧
    ∀ declared id, r.table.Answers request declared id ↔ r.table.active? declared = some id ∧
      (declared.tag = request.tag ∨ declared.tag = some .any) ∧
        ∃ s, declared.type.substitute s = request.type := by
  refine ⟨fun id s h => ?_, ?_, fun declared id => Table.answers_iff⟩
  · rcases r.resolve_free_cases request with ⟨id', s', declared, h', hprefers, hs⟩ | ⟨h', -⟩
    · cases h.symm.trans h'
      refine ⟨declared, hprefers, hs, fun hplain number htag => ?_⟩
      rcases hprefers.tag with hsame | hany
      · cases htag.symm.trans (hsame.trans hplain)
      · cases htag.symm.trans hany
    · exact absurd (h'.symm.trans h) synthesize_ne_binding
  · rcases r.resolve_free_cases request with ⟨id, s, declared, h, hprefers, -⟩ | ⟨h, hnone⟩
    · exact iff_of_false (fun hother => hother id s h) fun hnone =>
        hnone declared id hprefers.toAnswers
    · exact iff_of_true (fun id s hbinding => synthesize_ne_binding (h.symm.trans hbinding)) hnone

end Resolver

end Injector
