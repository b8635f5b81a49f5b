import Injector.Graph.Pool
import Injector.Resolution

/-!
# Dependency graphs

The graph of a root has a node for each value that is made and an edge from each consumer to each
dependency it receives. Nodes and edges can be taken back to an earlier checkpoint. Operations on a
node that is not in the graph fail.
-/

namespace Injector

/-- The number of a node. -/
abbrev NodeId := Nat

/-- A construction block: that of the root, which is zero, or of one provider call. -/
abbrev BlockId := Nat

/-- Why an operation cannot be carried out. -/
inductive Fault where
  /-- The node is not in the graph. -/
  | absentNode (n : NodeId)
  /-- The binding is not in the table. -/
  | absentBinding (id : BindingId)
  /-- More was recorded at the checkpoint than there is. -/
  | staleCheckpoint
  /-- The steps allowed to a search were used up. -/
  | exhausted
  deriving DecidableEq, Repr

/-- Where the value of a node comes from. -/
inductive Origin where
  /-- A binding under choices for its markers, with the number of the constructor chosen. -/
  | binding (id : BindingId) (substitution : Substitution) (constructor : Option Nat)
  /-- A shape. -/
  | synthesized (strategy : Strategy) (providerArgs : List TypeExpr)
  /-- A call of the provider that opened a block. -/
  | argument (block : BlockId) (index : Nat)
  deriving DecidableEq, Repr, Inhabited

/-- A value that is made. -/
structure Node where
  /-- The contract it answers. -/
  contract : Contract
  /-- The block it is made in. -/
  block : BlockId
  /-- Where it comes from. -/
  origin : Origin
  /-- How widely it is shared. -/
  lifetime : Lifetime
  /-- The scope of a scoped value, if it is not that of the composition. -/
  scope : Option String
  /-- Whether it is to be disposed. -/
  disposable : Bool
  /-- What diagnostics call it. -/
  label : String
  /-- Where it is declared. -/
  location : Location
  deriving DecidableEq, Repr, Inhabited

/-- A dependency that a consumer receives. -/
structure Edge where
  /-- The consumer. -/
  source : NodeId
  /-- The dependency. -/
  target : NodeId
  /-- When the dependency is made. -/
  timing : Timing
  /-- The position among the dependencies of the consumer. -/
  position : Nat
  /-- The parameter or variable that receives it; empty for parts of shapes. -/
  site : String
  /-- Where it is declared. -/
  location : Location
  deriving DecidableEq, Repr, Inhabited

/-- A state of a graph to which it can be taken back. -/
structure Checkpoint where
  /-- The number of nodes added before. -/
  nodes : Nat
  /-- The number of edges added before. -/
  edges : Nat
  deriving DecidableEq, Repr, Inhabited

/-- The values made for a root. -/
structure Graph where
  /-- The nodes. -/
  nodes : Pool Node
  /-- The edges. -/
  edges : Pool Edge
  /-- The node of the root, once it is resolved. -/
  root : Option NodeId
  /-- The number of blocks opened. -/
  blocks : Nat
  /-- The nodes added and not taken back, the last first. -/
  nodeLog : List NodeId
  /-- The edges added and not taken back, the last first. -/
  edgeLog : List Nat
  deriving DecidableEq, Repr, Inhabited

namespace Graph

/-- The graph of a root of which nothing is made yet. -/
def empty : Graph := ⟨.empty, .empty, none, 1, [], []⟩

/-- The node of a number. -/
def node (g : Graph) (n : NodeId) : Except Fault Node :=
  match g.nodes.get? n with
  | some node => .ok node
  | none => .error (.absentNode n)

/-- Adds a node, which gets the next number. -/
def addNode (g : Graph) (node : Node) : Graph :=
  { g with nodes := g.nodes.add node, nodeLog := g.nodes.nextNumber :: g.nodeLog }

/-- Adds an edge between nodes of the graph. -/
def addEdge (g : Graph) (edge : Edge) : Except Fault Graph :=
  if g.nodes.contains edge.source then
    if g.nodes.contains edge.target then
      .ok { g with edges := g.edges.add edge, edgeLog := g.edges.nextNumber :: g.edgeLog }
    else .error (.absentNode edge.target)
  else .error (.absentNode edge.source)

/-- Opens a block, which gets the next number. -/
def addBlock (g : Graph) : Graph := { g with blocks := g.blocks + 1 }

/-- Makes a node the root. -/
def setRoot (g : Graph) (n : NodeId) : Graph := { g with root := some n }

/-- Changes a node. -/
def modifyNode (g : Graph) (n : NodeId) (f : Node → Node) : Except Fault Graph :=
  if g.nodes.contains n then .ok { g with nodes := g.nodes.modify n f }
  else .error (.absentNode n)

/-- The numbers of the edges that leave a node, the one added last first. -/
def outgoing (g : Graph) (n : NodeId) : List (Nat × Edge) :=
  g.edges.entries.filter fun e => e.2.source == n

/-- The numbers of the edges that enter a node, the one added last first. -/
def incoming (g : Graph) (n : NodeId) : List (Nat × Edge) :=
  g.edges.entries.filter fun e => e.2.target == n

/-- The edges that leave a node in the order of their positions; of edges at one position the one
added last comes first. -/
def dependencies (g : Graph) (n : NodeId) : List Edge :=
  sortOn Edge.position ((g.outgoing n).map Prod.snd)

/-- Whether a node eagerly depends on itself. -/
def hasSelfLoop (g : Graph) (n : NodeId) : Bool :=
  (g.outgoing n).any fun e => e.2.target == n && e.2.timing == .eager

/-- Removes a node with its edges: first those that leave it, then those that enter it. -/
def removeNode (g : Graph) (n : NodeId) : Graph :=
  if g.nodes.contains n then
    let edges := (g.outgoing n).foldl (fun p e => p.erase e.1) g.edges
    let edges := (g.incoming n).foldl (fun p e => p.erase e.1) edges
    { g with nodes := g.nodes.erase n, edges }
  else g

/-- The present state. -/
def checkpoint (g : Graph) : Checkpoint := ⟨g.nodeLog.length, g.edgeLog.length⟩

/-- Removes the edges added since a checkpoint, the last first, and then the nodes. The root is
unset when its node goes. -/
def rollback (g : Graph) (c : Checkpoint) : Except Fault Graph :=
  if g.edgeLog.length < c.edges ∨ g.nodeLog.length < c.nodes then .error .staleCheckpoint
  else
    let lateEdges := g.edgeLog.take (g.edgeLog.length - c.edges)
    let lateNodes := g.nodeLog.take (g.nodeLog.length - c.nodes)
    let g := { g with
      edges := lateEdges.foldl Pool.erase g.edges
      edgeLog := g.edgeLog.drop (g.edgeLog.length - c.edges)
      nodeLog := g.nodeLog.drop (g.nodeLog.length - c.nodes) }
    .ok (lateNodes.foldl (fun g n =>
      let g := g.removeNode n
      if g.root = some n then { g with root := none } else g) g)

end Graph

end Injector
