import Injector.Diagnostic.Sink
import Injector.Graph.Basic
import Injector.Wiring.CycleLog

/-!
# The state of building a graph

A graph is built in depth from its root. What is under construction, the block and the segment are
given from a request to those that it causes; the graph, shared instances, remembered failures and
what is visible inside providers are changed on the way. A segment is what is made at one time: each
deferred request begins a new one.
-/

namespace Injector.Wiring

/-- What a value under construction is recognised by. -/
inductive Key where
  /-- A binding under choices for its markers. -/
  | binding (id : BindingId) (substitution : Substitution)
  /-- The contract of a synthesized value. -/
  | contract (c : Contract)
  deriving DecidableEq, Repr, Inhabited

/-- A value under construction. -/
structure Frame where
  /-- What it is recognised by. -/
  key : Key
  /-- Its node. -/
  node : NodeId
  /-- The segment in which it is made. -/
  segment : Nat
  /-- The contract it was asked for by. -/
  contract : Contract
  deriving DecidableEq, Repr, Inhabited

/-- What a shared instance is recognised by. -/
structure SharedKey where
  /-- The binding. -/
  binding : BindingId
  /-- The choices for its markers. -/
  substitution : Substitution
  /-- The block, where each block has an instance of its own. -/
  block : Option BlockId
  deriving DecidableEq, Repr, Inhabited

/-- The key under which instances of a lifetime are shared; transient ones are not. -/
def SharedKey.of? (lifetime : Lifetime) (id : BindingId) (s : Substitution) (block : BlockId) :
    Option SharedKey :=
  match lifetime with
  | .transient => none
  | .perBlock => some ⟨id, s, some block⟩
  | .perResolve | .scoped | .singleton => some ⟨id, s, none⟩

/-- Where an argument of a provider call comes from. -/
inductive Source where
  /-- It is not used yet. -/
  | argument (block : BlockId) (index : Nat)
  /-- It has a node. -/
  | node (n : NodeId)
  deriving DecidableEq, Repr, Inhabited

/-- An argument of a provider call. -/
structure Argument where
  /-- The type. -/
  type : TypeExpr
  /-- Where it comes from. -/
  source : Source
  deriving DecidableEq, Repr, Inhabited

/-- Where a request is made. -/
structure Site where
  /-- What diagnostics call the consumer. -/
  consumer : String
  /-- The place diagnostics point to. -/
  location : Location
  deriving DecidableEq, Repr, Inhabited

/-- What surrounds a request. -/
structure Context where
  /-- The values under construction, the root's first. -/
  path : List Frame
  /-- The present segment. -/
  segment : Nat
  /-- The present block. -/
  block : BlockId
  deriving DecidableEq, Repr, Inhabited

/-- What has been built and found so far. -/
structure State where
  /-- The graph. -/
  graph : Graph
  /-- The number of the next segment. -/
  nextSegment : Nat
  /-- The shared instances, the last first. -/
  shared : List (SharedKey × NodeId)
  /-- Bindings known to fail, with their issues, the last first. -/
  failures : List (Key × List Issue)
  /-- The arguments visible, those of the innermost provider first, and its last argument first. -/
  arguments : List Argument
  /-- The issues found. -/
  issues : List Issue
  /-- The bindings reached, ascending. -/
  touched : List BindingId
  /-- The loops reported. -/
  cycles : CycleLog
  deriving Repr, Inhabited

/-- A step of building. -/
abbrev Build (α : Type) : Type := StateT State (Except Fault) α

/-- Nothing built yet, after loops that were reported for other roots. -/
def State.start (cycles : CycleLog) : State := ⟨.empty, 1, [], [], [], [], [], cycles⟩

/-- Records an issue. -/
def report (issue : Issue) : Build Unit :=
  modify fun s => { s with issues := s.issues ++ [issue] }

/-- Records that a binding was reached. -/
def touch (id : BindingId) : Build Unit :=
  modify fun s => { s with touched := insertDistinct id s.touched }

/-- Adds a node to the graph. -/
def addNode (node : Node) : Build NodeId := do
  let s ← get
  set { s with graph := s.graph.addNode node }
  return s.graph.nodes.nextNumber

/-- Adds an edge to the graph. -/
def addEdge (edge : Edge) : Build Unit := do
  let s ← get
  set { s with graph := ← s.graph.addEdge edge }

/-- A state to which building can be taken back. -/
structure Mark where
  /-- The state of the graph. -/
  graph : Checkpoint
  /-- The number of issues. -/
  issues : Nat
  /-- The number of shared instances. -/
  shared : Nat

/-- The present state. -/
def mark : Build Mark := do
  let s ← get
  return ⟨s.graph.checkpoint, s.issues.length, s.shared.length⟩

/-- Takes back the graph, the shared instances and the issues, and returns these issues. -/
def rollback (m : Mark) : Build (List Issue) := do
  let s ← get
  set { s with
    graph := ← s.graph.rollback m.graph
    shared := s.shared.drop (s.shared.length - m.shared)
    issues := s.issues.take m.issues }
  return s.issues.drop m.issues

/-- Replaces the source of the first argument of a type. -/
def bindArgument (type : TypeExpr) (source : Source) : List Argument → List Argument
  | [] => []
  | a :: rest =>
      if a.type = type then { a with source } :: rest else a :: bindArgument type source rest

/-- The node of the innermost visible argument of a type, made when it is used first. -/
def argument? (type : TypeExpr) : Build (Option NodeId) := do
  match (← get).arguments.find? fun a => a.type == type with
  | none => return none
  | some ⟨_, .node n⟩ => return some n
  | some ⟨_, .argument block index⟩ =>
      let n ← addNode {
        contract := ⟨type, none⟩
        block
        origin := .argument block index
        lifetime := .transient
        scope := none
        disposable := false
        label := "provider argument " ++ toString index
        location := .unknown }
      modify fun s => { s with arguments := bindArgument type (.node n) s.arguments }
      return some n

/-- Records a loop, and an issue about `path` unless the loop was reported before. -/
def reportCycle (members : List String) (path : String) (location : Location) : Build Unit := do
  let s ← get
  let r := s.cycles.report members
  set { s with cycles := r.2 }
  if r.1 then report ⟨location, .cyclicDependency path⟩

end Injector.Wiring
