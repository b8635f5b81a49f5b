import Injector.Shape
import Injector.Table.Basic
import Injector.TypeExpr.Unification

/-!
# Resolving requests

A request is answered by the active binding of its very contract, else by the one that answers
every tag of its type, else by the latest generic binding whose contract matches it, else by the
shape of its type. An element of a collection is pinned to a binding, and the pin is carried
through wrappers such as providers until the type that the binding answers is reached.
-/

namespace Injector

/-- When a dependency is made. -/
inductive Timing where
  /-- Before its consumer. -/
  | eager
  /-- When a provider is called. -/
  | deferred
  deriving DecidableEq, Repr, Inhabited

/-- A binding that a request has to reach. -/
structure Pin where
  /-- The binding. -/
  binding : BindingId
  /-- The choices for its markers. -/
  substitution : Substitution
  /-- The type that it answers under these choices. -/
  type : TypeExpr
  deriving DecidableEq, Repr, Inhabited

/-- A request for a dependency. -/
structure Request where
  /-- What is asked for. -/
  contract : Contract
  /-- The binding it has to reach. -/
  pin : Option Pin
  deriving DecidableEq, Repr, Inhabited

/-- A request that is free to reach any binding. -/
def Request.free (contract : Contract) : Request := ⟨contract, none⟩

/-- What a synthesized value needs. -/
structure Dependency where
  /-- The request. -/
  request : Request
  /-- When it is made. -/
  timing : Timing
  deriving DecidableEq, Repr, Inhabited

/-- What answers a request. -/
inductive Resolution where
  /-- A binding, under choices for its markers. -/
  | binding (id : BindingId) (substitution : Substitution)
  /-- A value synthesized for a shape, and the arguments that a caller gives to it. -/
  | synthesized (strategy : Strategy) (dependencies : List Dependency)
      (providerArgs : List TypeExpr)
  /-- Nothing. -/
  | unresolved
  deriving DecidableEq, Repr, Inhabited

/-- A table, and the shapes for what it does not answer. -/
structure Resolver where
  /-- The table. -/
  table : Table
  /-- The shapes. -/
  shapes : Shapes
  deriving Repr, Inhabited

namespace Resolver

/-- The latest generic binding whose contract matches, with the choices that make it match. -/
def generic? (r : Resolver) (contract : Contract) : Option (BindingId × Substitution) :=
  r.table.activeContracts.reverse.findSome? fun (c, id) =>
    if c.type.containsMarker && Tag.answers c.tag contract.tag then
      (c.type.unify contract.type).map fun s => (id, s)
    else none

/-- The type whose bindings a collection gathers: that inside a provider or task. -/
def providedType (shapes : Shapes) (element : TypeExpr) : TypeExpr :=
  match shapes.lookup element with
  | some .func | some .lazy | some .threadLocal | some .completed =>
      element.args.getLast?.getD element
  | _ => element

/-- The choices under which a declared type is the provided one. -/
def provides? (declared provided : TypeExpr) : Option Substitution :=
  if declared = provided then some .empty
  else if declared.containsMarker then declared.unify provided
  else none

/-- A request for an element from each binding in turn, the first contract of a binding that fits
counting. -/
def elements (element provided : TypeExpr) (tag : Option Tag) (seen : List BindingId) :
    List (Contract × BindingId) → List Dependency
  | [] => []
  | (c, id) :: rest =>
      if id ∈ seen then elements element provided tag seen rest
      else if tag.isSome && !Tag.answers c.tag tag then elements element provided tag seen rest
      else
        match provides? c.type provided with
        | some s =>
            ⟨⟨⟨element, c.tag⟩, some ⟨id, s, provided⟩⟩, .eager⟩ ::
              elements element provided tag (id :: seen) rest
        | none => elements element provided tag seen rest

/-- The elements of a collection in the order of declaration. -/
def aggregate (r : Resolver) (element : TypeExpr) (tag : Option Tag) : List Dependency :=
  elements element (providedType r.shapes element) tag [] r.table.activeContracts

/-- The request for a part of a type, under the tag and the pin of the whole. -/
def carry (request : Request) (timing : Timing) (part : TypeExpr) : Dependency :=
  ⟨⟨⟨part, request.contract.tag⟩, request.pin⟩, timing⟩

/-- The answer that the shape of a type gives. -/
def synthesize (r : Resolver) (request : Request) : Resolution :=
  let args := request.contract.type.args
  match r.shapes.lookup request.contract.type with
  | none => .unresolved
  | some .aggregate =>
      match request.pin, args with
      | none, element :: _ =>
          .synthesized .aggregate (r.aggregate element request.contract.tag) []
      | _, _ => .unresolved
  | some .func =>
      match args.getLast? with
      | some result => .synthesized .func [carry request .deferred result] args.dropLast
      | none => .unresolved
  | some .tuple =>
      if request.pin.isSome then .unresolved
      else
        .synthesized .tuple (args.map fun type => ⟨.free ⟨type, none⟩, .eager⟩) []
  | some strategy =>
      match args with
      | part :: _ =>
          let timing := if strategy = .completed then .eager else .deferred
          .synthesized strategy [carry request timing part] []
      | [] => .unresolved

/-- The answer to a request. -/
def resolve (r : Resolver) (request : Request) : Resolution :=
  match request.pin with
  | some pin =>
      if pin.type = request.contract.type then .binding pin.binding pin.substitution
      else r.synthesize request
  | none =>
      match r.table.active? request.contract with
      | some id => .binding id .empty
      | none =>
          match r.table.anyTagged? request.contract.type with
          | some id => .binding id .empty
          | none =>
              match r.generic? request.contract with
              | some (id, s) => .binding id s
              | none => r.synthesize request

end Resolver

end Injector
