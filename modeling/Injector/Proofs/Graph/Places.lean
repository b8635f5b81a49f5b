import Injector.Proofs.Graph.Walk

/-!
# The places that edges take

What a node is made by has places for its dependencies: the parameters of a constructor, the
injections of a factory, the parts of a shape. A node fits when its edges take just these places;
only the variables of a factory may have none, for the factory can supply them itself. The main
statement is that the places of a node ascend, so that edges which take them in turn are listed as
its dependencies in that order.
-/

namespace Injector

/-- Where a value takes a dependency. -/
structure Place where
  /-- The position among the dependencies. -/
  position : Nat
  /-- The parameter or variable that receives it; empty for parts of shapes. -/
  site : String
  /-- When the dependency is made. -/
  timing : Timing
  deriving DecidableEq, Repr

/-- The place that an edge takes. -/
def Edge.place (e : Edge) : Place := ⟨e.position, e.site, e.timing⟩

/-- The places of the parameters of a constructor. -/
def Constructor.places (c : Constructor) : List Place :=
  c.parameters.zipIdx.map fun p => ⟨p.2, p.1.name, .eager⟩

/-- The place of a statement of a factory, if it injects a variable. -/
def FactoryStep.place? (step : FactoryStep) (position : Nat) : Option Place :=
  match step with
  | .inject variableName _ _ _ => some ⟨position, variableName, .eager⟩
  | .override _ _ _ => none

/-- The places of the injections among statements of a factory from a position on. -/
def injectionPlaces (position : Nat) (steps : List FactoryStep) : List Place :=
  (steps.zipIdx position).filterMap fun s => s.1.place? s.2

/-- The places of the parts of a shape from a position on. -/
def partPlaces (position : Nat) (parts : List Dependency) : List Place :=
  (parts.zipIdx position).map fun d => ⟨d.2, "", d.1.timing⟩

/-- Whether a node that was asked for by a request has exactly the edges for which what it is made
by has places. -/
inductive Fits (resolver : Resolver) (request : Request) (node : Node) (es : List Edge) :
    List Place → Prop
  /-- A constructor was chosen, and there is an edge for each of its parameters. -/
  | constructed {id : BindingId} {s : Substitution} {index : Nat} {r : Registration}
      {implementation : TypeExpr} {implements : Option (List TypeExpr)}
      {constructors : List Constructor} {c : Constructor}
      (origin : node.origin = .binding id s (some index))
      (registered : resolver.table.bindings[id]? = some r)
      (recipe : r.recipe = .construct implementation implements constructors)
      (chosen : constructors[index]? = some c) (edges : es.map Edge.place = c.places) :
      Fits resolver request node es c.places
  /-- There is no constructor to be chosen. -/
  | bare {id : BindingId} {s : Substitution} {r : Registration} {implementation : TypeExpr}
      {implements : Option (List TypeExpr)} (origin : node.origin = .binding id s none)
      (registered : resolver.table.bindings[id]? = some r)
      (recipe : r.recipe = .construct implementation implements []) (edges : es = []) :
      Fits resolver request node es []
  /-- The value is given from outside. -/
  | given {id : BindingId} {s : Substitution} {r : Registration} {name : String}
      {source : ArgumentSource} (origin : node.origin = .binding id s none)
      (registered : resolver.table.bindings[id]? = some r)
      (recipe : r.recipe = .argument name source) (edges : es = []) :
      Fits resolver request node es []
  /-- Each edge is for an injection of the factory, and no two are for the same. -/
  | factory {id : BindingId} {s : Substitution} {r : Registration} {expression : String}
      {steps : List FactoryStep} {isAsync : Bool} (origin : node.origin = .binding id s none)
      (registered : resolver.table.bindings[id]? = some r)
      (recipe : r.recipe = .factory expression steps isAsync)
      (edges : (es.map Edge.place).Sublist (injectionPlaces 0 steps)) :
      Fits resolver request node es (injectionPlaces 0 steps)
  /-- There is an edge for each part that the request resolves to. -/
  | synthesized {strategy : Strategy} {parts : List Dependency} {providerArgs : List TypeExpr}
      (origin : node.origin = .synthesized strategy providerArgs)
      (shape : resolver.resolve request = .synthesized strategy parts providerArgs)
      (edges : es.map Edge.place = partPlaces 0 parts) :
      Fits resolver request node es (partPlaces 0 parts)
  /-- The value is given by a provider call. -/
  | argument {block : BlockId} {index : Nat} (origin : node.origin = .argument block index)
      (edges : es = []) : Fits resolver request node es []

theorem pairwise_snd_zipIdx {α : Type} (as : List α) (k : Nat) :
    (as.zipIdx k).Pairwise fun a b => a.2 < b.2 := by
  have h : ((as.zipIdx k).map Prod.snd).Pairwise (· < ·) := by
    rw [List.zipIdx_map_snd]
    exact List.pairwise_lt_range'
  exact List.pairwise_map.mp h

/-- What is in the order of different keys is found so by sorting. -/
theorem sortOn_eq_of_perm {α : Type} {key : α → Nat} {as bs : List α} (h : as.Perm bs)
    (hbs : bs.Pairwise fun a b => key a < key b) : sortOn key as = bs := by
  have hperm : (sortOn key as).Perm bs := (sortBy_perm _ as).trans h
  have hkeys : (bs.map key).Nodup :=
    List.pairwise_map.mpr (hbs.imp fun hlt => Nat.ne_of_lt hlt)
  refine hperm.eq_of_pairwise (fun a b ha hb hle hge => ?_) (pairwise_sortOn key as)
    (hbs.imp fun hlt => Nat.le_of_lt hlt)
  exact List.inj_on_of_nodup_map hkeys (hperm.mem_iff.mp ha) hb (Nat.le_antisymm hle hge)

/-- Edges that take ascending places are the dependencies of their source in that order, whenever
they were added. -/
theorem Graph.dependencies_eq {g : Graph} {n : NodeId} {es : List Edge}
    (h : ((g.outgoing n).map Prod.snd).Perm es)
    (hes : (es.map Edge.place).Pairwise fun p q => p.position < q.position) :
    g.dependencies n = es :=
  sortOn_eq_of_perm h (hes.of_map Edge.place fun _ _ hlt => hlt)

theorem Constructor.pairwise_places (c : Constructor) :
    c.places.Pairwise fun p q => p.position < q.position :=
  (pairwise_snd_zipIdx c.parameters 0).map _ fun _ _ h => h

theorem pairwise_partPlaces (position : Nat) (parts : List Dependency) :
    (partPlaces position parts).Pairwise fun p q => p.position < q.position :=
  (pairwise_snd_zipIdx parts position).map _ fun _ _ h => h

theorem FactoryStep.position_of_place? {step : FactoryStep} {position : Nat} {p : Place}
    (h : step.place? position = some p) : p.position = position := by
  cases step with
  | inject variableName declared tag location =>
    cases h
    rfl
  | override variableName declared location => cases h

theorem pairwise_injectionPlaces (position : Nat) (steps : List FactoryStep) :
    (injectionPlaces position steps).Pairwise fun p q => p.position < q.position := by
  refine (pairwise_snd_zipIdx steps position).filterMap _ fun a b hlt p hp q hq => ?_
  rw [FactoryStep.position_of_place? hp, FactoryStep.position_of_place? hq]
  exact hlt

namespace Fits

variable {resolver : Resolver} {request : Request} {node : Node} {es : List Edge}
  {places : List Place}

/-- Places ascend. -/
theorem pairwise (h : Fits resolver request node es places) :
    places.Pairwise fun p q => p.position < q.position := by
  cases h with
  | @constructed id s index r implementation implements constructors c => exact c.pairwise_places
  | bare | given | argument => exact .nil
  | factory => exact pairwise_injectionPlaces 0 _
  | synthesized => exact pairwise_partPlaces 0 _

/-- Edges take places in turn. -/
theorem sublist (h : Fits resolver request node es places) :
    (es.map Edge.place).Sublist places := by
  cases h with
  | constructed _ _ _ _ edges => exact edges ▸ .refl _
  | bare _ _ _ edges => exact edges ▸ .refl _
  | given _ _ _ edges => exact edges ▸ .refl _
  | factory _ _ _ edges => exact edges
  | synthesized _ _ edges => exact edges ▸ .refl _
  | argument _ edges => exact edges ▸ .refl _

end Fits

end Injector
