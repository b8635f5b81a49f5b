import Injector.Graph.Basic

/-!
# Graphs as indented trees

The tree of a graph starts at its root and lists below each node its dependencies in the order of
their positions. A node is expanded where it stands first and only named elsewhere, so that the tree
has one line for the root and one for each edge that leaves a node of the tree.
-/

namespace Injector.Graph

/-- A line of a tree. -/
structure TreeLine where
  /-- The number of edges from the root. -/
  depth : Nat
  /-- When the node is made for its consumer; the root has none. -/
  timing : Option Timing
  /-- The node. -/
  id : NodeId
  /-- What is known of it. -/
  node : Node
  /-- Whether its dependencies follow. -/
  expanded : Bool
  deriving DecidableEq, Repr

/-- A node that waits to be listed. -/
structure TreeEntry where
  /-- The number of edges from the root. -/
  depth : Nat
  /-- When the node is made for its consumer; the root has none. -/
  timing : Option Timing
  /-- The node. -/
  id : NodeId
  deriving DecidableEq, Repr

/-- The lines for the nodes that wait, where `listed` were expanded before. Each line but the first
stands for an edge, which bounds their number. -/
def treeLines (g : Graph) : Nat → (listed : List NodeId) → List TreeEntry →
    Except Fault (List TreeLine)
  | _, _, [] => .ok []
  | 0, _, _ :: _ => .error .exhausted
  | fuel + 1, listed, e :: rest => do
      let node ← g.node e.id
      if e.id ∈ listed then
        return ⟨e.depth, e.timing, e.id, node, false⟩ :: (← treeLines g fuel listed rest)
      else
        let below := (g.dependencies e.id).map fun edge =>
          (⟨e.depth + 1, some edge.timing, edge.target⟩ : TreeEntry)
        return ⟨e.depth, e.timing, e.id, node, true⟩ ::
          (← treeLines g fuel (e.id :: listed) (below ++ rest))

/-- The arrow before a node. -/
def arrow : Option Timing → String
  | some .eager => "-> "
  | some .deferred => "~> "
  | none => ""

/-- The text of a line. -/
def TreeLine.text (l : TreeLine) : String :=
  let start := String.ofList (List.replicate (2 * l.depth) ' ') ++ arrow l.timing
  let number := "#" ++ toString l.id
  if l.expanded then
    start ++ number ++ " " ++ l.node.contract.text ++ " [" ++ l.node.lifetime.name ++ "] " ++
      l.node.label ++ "\n"
  else start ++ l.node.contract.text ++ " (see " ++ number ++ ")\n"

/-- The lines of the tree; there are none without a root. -/
def tree (g : Graph) : Except Fault (List TreeLine) :=
  treeLines g (g.edges.size + 1) [] (g.root.toList.map fun n => ⟨0, none, n⟩)

/-- The text of the tree. -/
def treeText (g : Graph) : Except Fault String :=
  return String.join ((← g.tree).map TreeLine.text)

end Injector.Graph
