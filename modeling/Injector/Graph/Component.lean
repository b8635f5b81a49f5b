import Injector.Graph.Basic

/-!
# Loops of eager dependencies

Nodes that eagerly reach each other form a component. Components are found by two searches in
depth: the first, against the edges, orders the nodes by when they are left; the second, along the
edges, starts from the node left last. A component with two nodes or with a self-loop is a loop.
-/

namespace Injector.Graph

/-- The nodes that a node eagerly depends on, those of the last edge first. -/
def eagerSuccessors (g : Graph) (n : NodeId) : List NodeId :=
  (g.outgoing n).filterMap fun e => if e.2.timing = .eager then some e.2.target else none

/-- The nodes that eagerly depend on a node, those of the last edge first. -/
def eagerPredecessors (g : Graph) (n : NodeId) : List NodeId :=
  (g.incoming n).filterMap fun e => if e.2.timing = .eager then some e.2.source else none

/-- The nodes met and left in a search so far, each list the last first. -/
structure Search where
  /-- The nodes met. -/
  met : List NodeId
  /-- The nodes left. -/
  left : List NodeId

/-- A search in depth along `next` that records when nodes are left. A node at the top of the stack
is met, and its successors that are not met are put above it, the last of them on top; a node met
before is taken off and, the first time, left. -/
def leaveFrom (next : NodeId → List NodeId) : Nat → List NodeId → Search → Search
  | fuel + 1, n :: stack, s =>
      if n ∉ s.met then
        let met := n :: s.met
        leaveFrom next fuel (((next n).filter (· ∉ met)).reverse ++ n :: stack) { s with met }
      else if n ∉ s.left then leaveFrom next fuel stack { s with left := n :: s.left }
      else leaveFrom next fuel stack s
  | _, _, s => s

/-- The nodes met from a stack on, in the order in which a search in depth meets them, before those
in `component`, which are listed last first; and all nodes met. -/
def meetFrom (next : NodeId → List NodeId) : Nat → (stack met component : List NodeId) →
    List NodeId × List NodeId
  | fuel + 1, n :: stack, met, component =>
      if n ∉ met then
        let met := n :: met
        meetFrom next fuel (((next n).filter (· ∉ met)).reverse ++ stack) met (n :: component)
      else meetFrom next fuel stack met component
  | _, _, met, component => (component.reverse, met)

/-- More steps than a search takes: each node is met once and put on the stack for each of its
edges. -/
def searchSteps (g : Graph) : Nat := 3 * (g.nodes.size + g.edges.size) + 3

/-- The nodes in the order in which they are left by searches against the eager edges, the last
first. -/
def leavingOrder (g : Graph) : List NodeId :=
  (g.nodes.numbers.foldl (fun s n =>
    if n ∈ s.met then s else leaveFrom g.eagerPredecessors g.searchSteps [n] s) ⟨[], []⟩).left

/-- The components that are reached from nodes not met yet. -/
def componentsFrom (g : Graph) (met : List NodeId) : List NodeId → List (List NodeId)
  | [] => []
  | n :: rest =>
      if n ∈ met then componentsFrom g met rest
      else
        let r := meetFrom g.eagerSuccessors g.searchSteps [n] met []
        r.1 :: componentsFrom g r.2 rest

/-- The components of the graph under its eager edges. -/
def eagerComponents (g : Graph) : List (List NodeId) := componentsFrom g [] g.leavingOrder

/-- Whether the nodes of a component form a loop. -/
def isLoop (g : Graph) (component : List NodeId) : Bool :=
  1 < component.length || component.any g.hasSelfLoop

/-- The first loop of eager dependencies. -/
def eagerLoop? (g : Graph) : Option (List NodeId) := g.eagerComponents.find? g.isLoop

/-- Whether eager dependencies alone form a loop. -/
def hasEagerLoop (g : Graph) : Bool := g.eagerLoop?.isSome

end Injector.Graph
