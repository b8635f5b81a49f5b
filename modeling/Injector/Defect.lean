import Injector.Graph.Component
import Injector.Wiring.Basic

/-!
# Lifetime defects of a built graph

Along eager dependencies an instance holds what it depends on. From the root on, the nearest
singleton and the nearest scoped instance above a node are carried along, and whether the node is
reached from a static root by eager edges alone. A deferred dependency is made later and holds
nothing.
-/

namespace Injector

/-- What holds the instances below a place. -/
structure Capture where
  /-- The nearest singleton. -/
  singletonHolder : Option NodeId
  /-- The nearest scoped instance. -/
  scopedHolder : Option NodeId
  /-- Whether the place is reached from a static root by eager edges alone. -/
  fromStaticRoot : Bool
  deriving DecidableEq, Repr, Inhabited

namespace Capture

/-- Nothing holds what is made later. -/
def free : Capture := ⟨none, none, false⟩

/-- What holds the dependencies of a node. -/
def below (c : Capture) (n : NodeId) (lifetime : Lifetime) : Capture :=
  match lifetime with
  | .singleton => { c with singletonHolder := some n }
  | .scoped => { c with scopedHolder := some n }
  | _ => c

end Capture

namespace Graph

/-- What diagnostics call a scope. -/
def scopeName (scope : Option String) : String := scope.getD "composition"

/-- The defect of a scoped instance that a singleton holds. -/
def lifetimeDefect (consumer dependency : Node) : Issue :=
  ⟨consumer.location, .lifetimeDefect consumer.label consumer.lifetime.name dependency.label
    dependency.lifetime.name⟩

/-- The defect of a scoped instance that one of another scope holds. -/
def crossScopeCapture (consumer dependency : Node) : Issue :=
  ⟨consumer.location, .crossScopeCapture consumer.label (scopeName consumer.scope)
    dependency.label (scopeName dependency.scope)⟩

/-- What a node needs of an instance of the composition. -/
def instanceRequirement (table : Table) (node : Node) : Except Fault (Option String) :=
  if node.lifetime.isLongLived then
    .ok (some ("the " ++ node.lifetime.name ++ " instance storage"))
  else
    match node.origin with
    | .binding id _ _ =>
        match table.bindings[id]? with
        | none => .error (.absentBinding id)
        | some r =>
            match r.recipe with
            | .argument name .composition =>
                .ok (some ("the composition argument \"" ++ name ++ "\""))
            | _ => .ok none
    | _ => .ok none

/-- The defects of one node under a capture. -/
def defectsAt (g : Graph) (table : Table) (root : Table.Root) (node : Node) (c : Capture) :
    Except Fault (List Issue) := do
  let held ← match node.lifetime, c.singletonHolder with
    | .scoped, some n => pure [lifetimeDefect (← g.node n) node]
    | _, _ => pure []
  let crossed ← match node.lifetime, c.scopedHolder with
    | .scoped, some n => do
        let consumer ← g.node n
        pure (if consumer.scope ≠ node.scope then [crossScopeCapture consumer node] else [])
    | _, _ => pure []
  let needed ←
    if c.fromStaticRoot then
      match ← instanceRequirement table node with
      | some requirement =>
          pure [⟨root.location, .staticRootDefect root.describe node.label requirement⟩]
      | none => pure []
    else pure []
  return held ++ crossed ++ needed

/-- The defects of the places that wait, where those of `seen` were looked at before. -/
def walkDefects (g : Graph) (table : Table) (root : Table.Root) : Nat →
    (seen waiting : List (NodeId × Capture)) → Except Fault (List Issue)
  | _, _, [] => .ok []
  | 0, _, _ :: _ => .error .exhausted
  | fuel + 1, seen, (n, c) :: waiting =>
      if (n, c) ∈ seen then walkDefects g table root fuel seen waiting
      else do
        let node ← g.node n
        let here ← defectsAt g table root node c
        let next := (g.dependencies n).map fun e =>
          (e.target, if e.timing = .eager then c.below n node.lifetime else .free)
        let rest ← walkDefects g table root fuel ((n, c) :: seen) (next ++ waiting)
        return here ++ rest

/-- More places than a walk looks at: each capture of each node is followed along its edges once. -/
def walkSteps (g : Graph) : Nat :=
  2 * (g.nodes.size + 1) * (g.nodes.size + 1) * g.edges.size + 1

/-- The issue of a loop of eager dependencies, told against the order in which it was found. -/
def loopDefect (g : Graph) (component : List NodeId) : Except Fault (List Issue) := do
  let nodes ← component.mapM g.node
  match nodes.head?, nodes.getLast? with
  | some first, some last =>
      return [⟨first.location, .cyclicDependency
        (" -> ".intercalate ((nodes.reverse ++ [last]).map fun n => n.contract.text))⟩]
  | _, _ => return []

/-- The defects of a graph. A loop is reported only when nothing else is. -/
def defects (g : Graph) (table : Table) (root : Table.Root) : Except Fault (List Issue) := do
  match g.root with
  | none => return []
  | some start => do
      let capture : Capture := { Capture.free with fromStaticRoot := root.kind == .static }
      let found ← walkDefects g table root g.walkSteps [] [(start, capture)]
      match found, g.eagerLoop? with
      | [], some component => g.loopDefect component
      | _, _ => return found

end Graph

end Injector
