import Injector.Diagnostic.Sink
import Injector.Table.Basic
import Injector.Table.Order
import Injector.Text.Identifier
import Injector.TypeExpr.Unification

/-!
# Merging setups into a table

The setups of a composition are laid one after the other in the order of dependency. Declared
markers are put in, tags declared as unique get their numbers, and lifetimes their defaults. An
argument of a generic type and a root declared twice leave no table; everything else that is
found is reported beside it.
-/

namespace Injector

/-- Puts declared markers into a parameter. -/
def Injection.withMarkers (names : List String) (i : Injection) : Injection :=
  { i with type := i.type.withMarkers names }

/-- Puts declared markers into a constructor. -/
def Constructor.withMarkers (names : List String) (c : Constructor) : Constructor :=
  { c with parameters := c.parameters.map (Injection.withMarkers names) }

/-- Puts declared markers into a statement. -/
def FactoryStep.withMarkers (names : List String) : FactoryStep → FactoryStep
  | .inject variableName type tag location =>
      .inject variableName (type.map (TypeExpr.withMarkers names)) tag location
  | .override variableName type location =>
      .override variableName (type.map (TypeExpr.withMarkers names)) location

/-- Puts declared markers into a recipe. -/
def Recipe.withMarkers (names : List String) : Recipe → Recipe
  | .construct implementation implements constructors =>
      .construct (implementation.withMarkers names)
        (implements.map fun ts => ts.map (TypeExpr.withMarkers names))
        (constructors.map (Constructor.withMarkers names))
  | .factory expression steps isAsync =>
      .factory expression (steps.map (FactoryStep.withMarkers names)) isAsync
  | .argument name source => .argument name source

/-- Whether a recipe names a type that can be disposed among those implemented. -/
def Recipe.implementsDisposal : Recipe → Bool
  | .construct _ (some implements) _ =>
      implements.any fun t => t.name?.any fun name =>
        name ∈ ["IDisposable", "System.IDisposable", "IAsyncDisposable", "System.IAsyncDisposable"]
  | _ => false

/-- Whether a statement overrides with a variable. -/
def FactoryStep.overrides (variableName : String) : FactoryStep → Bool
  | .override v _ _ => v == variableName
  | .inject .. => false

namespace Table

/-- The contracts of one type under declared tags, unique ones numbered from `next` on, and the
next number. The numbers do not run out here; a counter of 32 bits serves the first `2 ^ 32` unique
tags of a composition and has no number for another one. -/
def tagged (type : TypeExpr) (next : Nat) : List TagSpec → List Contract × Nat
  | [] => ([], next)
  | .unique :: tags =>
      let r := tagged type (next + 1) tags
      (⟨type, some (.unique next)⟩ :: r.1, r.2)
  | .value s :: tags =>
      let r := tagged type next tags
      (⟨type, some (.value s)⟩ :: r.1, r.2)
  | .any :: tags =>
      let r := tagged type next tags
      (⟨type, some .any⟩ :: r.1, r.2)

/-- The contracts that specifications declare, and the next number for a unique tag. -/
def declared (markers : List String) (next : Nat) : List ContractSpec → List Contract × Nat
  | [] => ([], next)
  | spec :: specs =>
      let type := spec.type.withMarkers markers
      let here := if spec.tags.isEmpty then ([⟨type, none⟩], next) else tagged type next spec.tags
      let r := declared markers here.2 specs
      (here.1 ++ r.1, r.2)

/-- A binding of a setup as it enters a table, and the next number for a unique tag. -/
def register (setup : Setup) (next : Nat) (b : Binding) : Registration × Nat :=
  let recipe := b.recipe.withMarkers setup.markers
  let contracts := declared setup.markers next b.contracts
  ({ contracts :=
      match contracts.1, recipe with
      | [], .construct implementation _ _ => [⟨implementation, none⟩]
      | cs, _ => cs
     lifetime := (b.lifetime <|> setup.defaultLifetime).getD .transient
     recipe
     setup := setup.name
     scope := b.scope
     disposable := b.disposable || recipe.implementsDisposal
     location := b.location }, contracts.2)

/-- The bindings of several setups as they enter a table. They share one count of unique tags, which
is a natural and not bounded by a width (see `tagged`). -/
def registerAll (next : Nat) : List (Setup × Binding) → List Registration
  | [] => []
  | (setup, b) :: rest =>
      let r := register setup next b
      r.1 :: registerAll r.2 rest

/-- A root of a setup as it enters a table. -/
def rootOf (setup : Setup) (r : Injector.Root) : Root :=
  ⟨r.name, .request (r.type.withMarkers setup.markers) r.tag, r.kind, setup.name, r.location⟩

/-- A member of a setup as it enters a table. -/
def memberOf (setup : Setup) (m : Injector.Member) : Member :=
  ⟨m.name, m.isStatic, setup.name, m.location⟩

/-- The table of setups that are already in order. -/
def ofSetups (composition : String) (callerHints : Hints) (setups : List Setup) : Table where
  composition
  bindings := registerAll 0 (setups.flatMap fun s => s.bindings.map fun b => (s, b))
  roots := setups.flatMap fun s => s.roots.map (rootOf s)
  members := setups.flatMap fun s => s.members.map (memberOf s)
  hints := setups.foldl (fun hints s => hints.overlay s.hints) callerHints

/-- Arguments whose type holds a marker. -/
def genericArguments (t : Table) : List Issue :=
  t.bindings.flatMap fun b =>
    match b.recipe with
    | .argument name _ =>
        (b.contracts.filter fun c => c.type.containsMarker).map fun c =>
          ⟨b.location, .genericArgument name c.type.text⟩
    | _ => []

/-- What no two roots may share. -/
inductive RootKey where
  /-- The member. -/
  | member (name : String)
  /-- The contract of a root without a member. -/
  | contract (c : Contract)
  deriving DecidableEq, Repr

/-- What no other root may share with this one. -/
def Root.key (r : Root) : RootKey :=
  if r.name.isEmpty then .contract r.contract else .member r.name

/-- The roots whose key is among `seen` or that of an earlier root. -/
def repeatedRoots (seen : List RootKey) : List Root → List Root
  | [] => []
  | r :: rest =>
      if r.key ∈ seen then r :: repeatedRoots seen rest
      else repeatedRoots (r.key :: seen) rest

/-- Roots that were declared before. -/
def duplicateRoots (t : Table) : List Issue :=
  (repeatedRoots [] t.roots).map fun r => ⟨r.location, .duplicateRoot r.describe⟩

/-- Whether a type is a contract, or either is a pattern of the other. -/
def covers (type contract : TypeExpr) : Bool :=
  type == contract || (type.unify contract).isSome || (contract.unify type).isSome

/-- Contracts that an implementation is known not to implement. -/
def unimplementedContracts (t : Table) : List Issue :=
  t.bindings.flatMap fun b =>
    match b.recipe with
    | .construct implementation (some implements) _ =>
        (b.contracts.filter fun c =>
          !(implementation :: implements).any fun type => covers type c.type).map fun c =>
            ⟨b.location, .notImplementedContract implementation.text c.type.text⟩
    | _ => []

/-- Injected variables that a factory neither overrides with nor mentions. -/
def unusedInjections (t : Table) : List Issue :=
  t.bindings.flatMap fun b =>
    match b.recipe with
    | .factory expression steps _ =>
        steps.filterMap fun step =>
          match step with
          | .inject variableName _ _ location =>
              if steps.any (FactoryStep.overrides variableName) ||
                  Text.mentions expression variableName then none
              else some ⟨location, .injectionSiteNotUsed variableName b.describe⟩
          | .override .. => none
    | _ => []

/-- Generic roots, where resolve methods are made. -/
def genericRoots (t : Table) : List Issue :=
  if t.hints.resolveMethods then
    (t.roots.filter fun r => r.contract.type.containsMarker).map fun r =>
      ⟨r.location, .typeArgInResolveMethod r.describe r.contract.type.text⟩
  else []

/-- Members of instances that other setups hand to the composition. -/
def inheritedMembers (t : Table) : List Issue :=
  (t.members.filter fun m => m.setup != t.composition && !m.isStatic).map fun m =>
    ⟨m.location, .instanceMemberInDependsOnSetup m.name m.setup t.composition⟩

/-- Bindings that are active for contracts that others declare. -/
def overridingBindings (t : Table) : List Issue :=
  t.bindings.zipIdx.filterMap fun b =>
    let contracts := t.overriddenBy b.2
    if contracts.isEmpty then none
    else some ⟨b.1.location,
      .overriddenBinding (", ".intercalate (contracts.map Contract.text)) b.1.describe⟩

/-- What makes a table unusable. -/
def configurationErrors (t : Table) : List Issue := t.genericArguments ++ t.duplicateRoots

/-- What is found in every table, usable or not. -/
def findings (t : Table) : List Issue :=
  t.unimplementedContracts ++ t.unusedInjections ++ t.genericRoots ++ t.inheritedMembers

/-- Merges the setups of a composition and reports what is found. There is no table when setups
are missing or depend on each other, or when the table would be unusable. -/
def merge (setups : List Setup) (composition : String) (callerHints : Hints) (sink : Sink) :
    Sink × Option Table :=
  if composition ∉ Setup.names setups then
    (sink.report ⟨.unknown, .setupNotFound composition composition⟩, none)
  else
    match Setup.order setups composition with
    | .error e => (sink.report e.issue, none)
    | .ok order =>
        let t := ofSetups composition callerHints (order.flatMap (Setup.parts setups))
        let sink := (sink.reportAll t.configurationErrors).reportAll t.findings
        if t.configurationErrors.isEmpty then
          (sink.reportAll t.overridingBindings, some t)
        else (sink, none)

end Table

end Injector
