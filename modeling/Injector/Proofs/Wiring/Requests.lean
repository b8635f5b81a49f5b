import Injector.Proofs.Wiring.Growth

/-!
# The requests of a node

What a node needs at a position can be read off the node: the parameter of the constructor noted at
it, the statement of the factory of its binding, or the dependency that the shape of its contract
has under the pin with which it was asked for. The main statement is that a value is connected at
each position by the very request of that position.
-/

namespace Injector

/-- The request of a statement of a factory. -/
def stepRequest? (steps : List FactoryStep) (s : Substitution) (position : Nat) : Option Request :=
  match steps.drop position with
  | .inject variableName declared tag _ :: later =>
      (Wiring.injectedType? steps later variableName declared).map fun type =>
        .free (.request (type.substitute s) tag)
  | _ => none

/-- The request of a position of a value that is made by a recipe, by the constructor of a number if
by one. -/
def Recipe.request? (recipe : Recipe) (s : Substitution) (constructor : Option Nat)
    (position : Nat) : Option Request :=
  match recipe with
  | .construct _ _ constructors => do
      let c ← constructors[← constructor]?
      let p ← c.parameters[position]?
      return .free (.request (p.type.substitute s) p.tag)
  | .factory _ steps _ => stepRequest? steps s position
  | .argument _ _ => none

/-- The request of a position of a node that was asked for under a pin. -/
def Resolver.requestAt (resolver : Resolver) (pin : Option Pin) (node : Node) (position : Nat) :
    Option Request :=
  match node.origin with
  | .argument _ _ => none
  | .binding id s constructor =>
      resolver.table.bindings[id]?.bind fun r => r.recipe.request? s constructor position
  | .synthesized _ _ =>
      match resolver.resolve ⟨node.contract, pin⟩ with
      | .synthesized _ dependencies _ => dependencies[position]?.map Dependency.request
      | _ => none

/-- Whether a value is made by a binding. -/
def Origin.isBinding : Origin → Bool
  | .binding _ _ _ => true
  | .synthesized _ _ | .argument _ _ => false

/-- What a value of a binding asks for does not depend on the pin with which it was asked for. -/
theorem Resolver.requestAt_of_isBinding (resolver : Resolver) {node : Node}
    (h : node.origin.isBinding = true) (pin : Option Pin) (position : Nat) :
    resolver.requestAt pin node position = resolver.requestAt none node position := by
  unfold requestAt
  cases ho : node.origin with
  | binding id s constructor => rfl
  | synthesized strategy providerArgs =>
    rw [ho] at h
    cases h
  | argument block index => rfl

namespace Wiring

/-- What a factory is connected by are the requests of its statements. -/
theorem stepRequest?_of_mem_stepJobs {r : Registration} {s : Substitution}
    {steps later : List FactoryStep} {position : Nat} {scope : FactoryScope} {l : Link}
    (hlater : steps.drop position = later)
    (h : .link l ∈ stepJobs r s steps position scope later) :
    stepRequest? steps s l.wire.position = some l.wire.request := by
  induction later generalizing position scope with
  | nil => cases h
  | cons step later ih =>
    have hnext : steps.drop (position + 1) = later := by
      rw [← List.tail_drop, hlater, List.tail_cons]
    cases step with
    | inject variableName declared tag location =>
      simp only [stepJobs] at h
      split at h
      · rcases List.mem_cons.mp h with heq | h
        · cases heq
        · exact ih hnext h
      · next type htype =>
        split at h
        · exact ih hnext h
        · rcases List.mem_cons.mp h with heq | h
          · cases heq
            simp only [stepRequest?, hlater, htype, Option.map_some]
          · exact ih hnext h
    | override variableName declared location =>
      simp only [stepJobs] at h
      split at h
      · exact ih hnext h
      · rcases List.mem_cons.mp h with heq | h
        · cases heq
        · exact ih hnext h

/-- What a value of a binding is connected by are the requests of its recipe, for the constructor by
which it is made. -/
theorem request?_of_workOf_once {r : Registration} {s : Substitution} {jobs : List Job} {l : Link}
    (hwork : workOf r s = .once jobs) (h : .link l ∈ jobs) (constructor : Option Nat) :
    r.recipe.request? s constructor l.wire.position = some l.wire.request := by
  unfold workOf at hwork
  split at hwork
  · cases hwork
    cases h
  · cases hwork
  · next steps isAsync hrecipe =>
    split at hwork
    · cases hwork
      cases List.mem_singleton.mp h
    · cases hwork
      rw [hrecipe]
      exact stepRequest?_of_mem_stepJobs (List.drop_zero) h
  · cases hwork
    cases h

theorem request?_of_workOf_choice {r : Registration} {s : Substitution}
    {alternatives : List (List Job × Nat)} {jobs : List Job} {index : Nat} {l : Link}
    (hwork : workOf r s = .choice alternatives) (hmem : (jobs, index) ∈ alternatives)
    (h : .link l ∈ jobs) :
    r.recipe.request? s (some index) l.wire.position = some l.wire.request := by
  unfold workOf at hwork
  split at hwork
  · cases hwork
  · next c cs hrecipe =>
    cases hwork
    obtain ⟨⟨candidate, i⟩, hcandidate, heq⟩ := List.mem_map.mp hmem
    cases heq
    have hindex : (c :: cs)[i]? = some candidate :=
      List.mem_zipIdx_iff_getElem?.mp (mem_sortBy.mp hcandidate)
    obtain ⟨w, hw, heq⟩ := List.mem_map.mp h
    cases heq
    obtain ⟨⟨p, position⟩, hp, rfl⟩ := List.mem_map.mp hw
    have hposition := List.mem_zipIdx_iff_getElem?.mp hp
    simp only at hposition
    simp [hrecipe, Recipe.request?, hindex, hposition]
  · split at hwork <;> cases hwork
  · cases hwork

variable {resolver : Resolver} {q : Query} {m : Making} {l : Link}

/-- A value that can be made in one way is connected by the requests of its node. -/
theorem requestAt_content (hm : q.verdict resolver = .ok (.make m)) {jobs : List Job}
    (hwork : m.work = .once jobs) (hl : .link l ∈ jobs) :
    resolver.requestAt q.request.pin m.content l.wire.position = some l.wire.request := by
  cases Query.verdict_grounds hm with
  | makeBinding hres hr =>
    simp only [Resolver.requestAt, Query.bindingMaking, hr, Option.bind_some]
    exact request?_of_workOf_once hwork hl none
  | @makeShape strategy deps args hres =>
    cases hwork
    obtain ⟨d, hd, hrequest⟩ := mem_partJobs hl
    have hposition := List.mem_zipIdx_iff_getElem?.mp hd
    have hresolve : resolver.resolve ⟨q.request.contract, q.request.pin⟩ =
        .synthesized strategy deps args := hres
    simp only at hposition
    simp [Resolver.requestAt, Query.shapeMaking, hresolve, hposition, hrequest]

/-- A value that is made by one of several constructors is connected by the requests of its node
once the constructor is noted there. -/
theorem requestAt_chosen (hm : q.verdict resolver = .ok (.make m))
    {alternatives : List (List Job × Nat)} {jobs : List Job} {index : Nat}
    (hwork : m.work = .choice alternatives) (hmem : (jobs, index) ∈ alternatives)
    (hl : .link l ∈ jobs) :
    resolver.requestAt q.request.pin (chosen index m.content) l.wire.position =
      some l.wire.request := by
  cases Query.verdict_grounds hm with
  | makeBinding hres hr =>
    simp only [Resolver.requestAt, Query.bindingMaking, chosen, hr, Option.bind_some]
    exact request?_of_workOf_choice hwork hmem hl
  | makeShape => cases hwork

end Wiring

end Injector
