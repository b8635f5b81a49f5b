import Injector.Wiring.State

/-!
# Building the graph of a root

Requests are followed in depth from the root. Values that are not transient are shared; an eager
request for what is under construction in the same segment is a loop, while a deferred one links
back; constructors are tried in the order of preference, and a rejected one is taken back; the
arguments of a provider call answer requests below the provider; and what a factory overrides
answers its own later injections.
-/

namespace Injector.Wiring

/-- A way to follow a request to the node that answers it. -/
abbrev Follow : Type := Context → Request → Timing → Site → Build (Option NodeId)

/-- A connection to be made from a consumer. -/
structure Wire where
  /-- The request. -/
  request : Request
  /-- When the dependency is made. -/
  timing : Timing
  /-- The position among the dependencies of the consumer. -/
  position : Nat
  /-- The parameter or variable that receives it. -/
  site : String
  /-- Where the edge is declared. -/
  location : Location

/-- Follows a request and connects the consumer to the answer; tells whether there is one. -/
def connect (follow : Follow) (context : Context) (consumer : NodeId) (wire : Wire) (site : Site) :
    Build Bool := do
  match ← follow context wire.request wire.timing site with
  | none => return false
  | some target =>
      addEdge ⟨consumer, target, wire.timing, wire.position, wire.site, wire.location⟩
      return true

/-- How often a binding may be under construction on one path. -/
def maxSpecializations : Nat := 4

/-- The contracts under construction from the first frame on that has a property. -/
def contractsFrom (path : List Frame) (p : Frame → Bool) : List String :=
  (path.dropWhile fun f => !p f).map fun f => f.contract.text

/-- Decides a request for what is under construction. A deferred request links back. An eager one
is a loop within one segment; from a later segment on, a shared instance is there already, and any
other is made anew, which leaves the request undecided. -/
def decide? (context : Context) (key : Key) (contract : Contract) (timing : Timing)
    (isShared : Bool) (site : Site) : Build (Option (Option NodeId)) := do
  match context.path.find? fun f => f.key == key with
  | none => return none
  | some frame =>
      match timing with
      | .deferred => return some (some frame.node)
      | .eager =>
          if frame.segment = context.segment then
            let members := contractsFrom context.path fun f => f.key == key
            reportCycle members (" -> ".intercalate (members ++ [contract.text])) site.location
            return some none
          else if isShared then return some (some frame.node)
          else return none

/-- Whether a frame belongs to a binding. -/
def Frame.isOf (id : BindingId) (f : Frame) : Bool :=
  match f.key with
  | .binding b _ => b == id
  | .contract _ => false

/-- Refuses a binding that is under construction too often, as a generic one is that keeps asking
for new specializations of itself. -/
def refuses (context : Context) (id : BindingId) (site : Site) : Build Bool := do
  if (context.path.filter (Frame.isOf id)).length < maxSpecializations then return false
  else
    let members := contractsFrom context.path (Frame.isOf id)
    reportCycle members (" -> ".intercalate members ++ " -> ...") site.location
    return true

/-- The wires of a constructor under choices for the markers of its binding. -/
def wiresOf (s : Substitution) (fallback : Location) (c : Constructor) : List Wire :=
  c.parameters.zipIdx.map fun p =>
    ⟨.free (.request (p.1.type.substitute s) p.1.tag), .eager, p.2, p.1.name,
      p.1.location.orElse fallback⟩

/-- Makes every connection of a list, also after one fails; tells whether all succeed. -/
def connectAll (follow : Follow) (context : Context) (consumer : NodeId) (name : String) :
    List Wire → Build Bool
  | [] => return true
  | wire :: wires => do
      let here ← connect follow context consumer wire ⟨name, wire.location⟩
      let rest ← connectAll follow context consumer name wires
      return here && rest

/-- Adds to `found` the issues whose message it does not hold. -/
def unionIssues (found : List Issue) : List Issue → List Issue
  | [] => found
  | issue :: rest =>
      if found.any fun f => f.message == issue.message then unionIssues found rest
      else unionIssues (found ++ [issue]) rest

/-- Tries constructors in turn. A rejected one is taken back; when all are, their issues are
recorded, each message once. -/
def tryConstructors (follow : Follow) (context : Context) (node : NodeId) (r : Registration)
    (s : Substitution) : List (Constructor × Nat) → (found : List Issue) → Build Bool
  | [], found => do
      modify fun st => { st with issues := st.issues ++ found }
      return false
  | (c, index) :: rest, found => do
      let m ← mark
      if ← connectAll follow context node r.describe (wiresOf s r.location c) then
        let st ← get
        set { st with graph := ← st.graph.modifyNode node fun n =>
          match n.origin with
          | .binding id s _ => { n with origin := .binding id s (some index) }
          | _ => n }
        return true
      else
        let issues ← rollback m
        tryConstructors follow context node r s rest (unionIssues found issues)

/-- Whether a constructor is tried before or with another: ranked ones come first, by rank, and of
equal rank those with more parameters. -/
def preferred (a b : Constructor) : Bool :=
  match a.ordinal, b.ordinal with
  | some _, none => true
  | none, some _ => false
  | some m, some n =>
      m < n || (m == n && b.parameters.length ≤ a.parameters.length)
  | none, none => b.parameters.length ≤ a.parameters.length

/-- Constructors with their numbers in the order in which they are tried. -/
def preferenceOrder (constructors : List Constructor) : List (Constructor × Nat) :=
  sortBy (fun a b => preferred a.1 b.1) constructors.zipIdx

/-- Makes a value by one of its constructors; without any, none is needed. -/
def construct (follow : Follow) (context : Context) (node : NodeId) (r : Registration)
    (s : Substitution) (constructors : List Constructor) : Build Bool :=
  if constructors.isEmpty then return true
  else tryConstructors follow context node r s (preferenceOrder constructors) []

/-- The explicit types that overrides give a variable. -/
def overrideTypes (variableName : String) (steps : List FactoryStep) : List TypeExpr :=
  steps.filterMap fun step =>
    match step with
    | .override v (some type) _ => if v = variableName then some type else none
    | _ => none

/-- The one explicit type that overrides give a variable. -/
def inferredType? (steps : List FactoryStep) (variableName : String) : Option TypeExpr :=
  match overrideTypes variableName steps with
  | [] => none
  | type :: rest => if rest.all (· == type) then some type else none

/-- The type of an injection: the one declared, unless a later override gives the variable another
one, or the one that the overrides agree on. -/
def injectedType? (steps later : List FactoryStep) (variableName : String)
    (declared : Option TypeExpr) : Option TypeExpr :=
  match declared with
  | some type =>
      if (overrideTypes variableName later).any (· != type) then none else some type
  | none => inferredType? steps variableName

/-- The variables and types that the statements of a factory have settled. -/
structure FactoryScope where
  /-- The types that variables were injected with, the last first. -/
  injected : List (String × TypeExpr)
  /-- The types that overrides answer. -/
  overrides : List TypeExpr

/-- Carries out the statements of a factory from a position on. An injection without a tag whose
type is overridden needs no dependency. -/
def runSteps (follow : Follow) (context : Context) (node : NodeId) (r : Registration)
    (s : Substitution) (steps : List FactoryStep) :
    (position : Nat) → FactoryScope → List FactoryStep → Build Bool
  | _, _, [] => return true
  | position, scope, .inject variableName declared tag location :: later => do
      let location := location.orElse r.location
      match injectedType? steps later variableName declared with
      | none =>
          report ⟨location, .typeCannotBeInferred variableName r.describe⟩
          let _ ← runSteps follow context node r s steps (position + 1) scope later
          return false
      | some type =>
          let type := type.substitute s
          let next := { scope with injected := (variableName, type) :: scope.injected }
          if tag.isNone && decide (type ∈ scope.overrides) then
            runSteps follow context node r s steps (position + 1) next later
          else
            let wire : Wire :=
              ⟨.free (.request type tag), .eager, position, variableName, location⟩
            let here ← connect follow context node wire ⟨r.describe, location⟩
            let rest ← runSteps follow context node r s steps (position + 1) next later
            return here && rest
  | position, scope, .override variableName declared location :: later => do
      match declared <|> scope.injected.lookup variableName with
      | some type =>
          let next := { scope with overrides := scope.overrides ++ [type.substitute s] }
          runSteps follow context node r s steps (position + 1) next later
      | none =>
          report ⟨location.orElse r.location, .typeCannotBeInferred variableName r.describe⟩
          let _ ← runSteps follow context node r s steps (position + 1) scope later
          return false

/-- Makes a value by a factory, which may not suspend. -/
def runFactory (follow : Follow) (context : Context) (node : NodeId) (r : Registration)
    (s : Substitution) (steps : List FactoryStep) (isAsync : Bool) : Build Bool := do
  if isAsync then
    report ⟨r.location, .asyncFactoryNotSupported r.describe⟩
    return false
  else runSteps follow context node r s steps 0 ⟨[], []⟩ steps

/-- Makes a value by its recipe. -/
def realize (follow : Follow) (context : Context) (node : NodeId) (r : Registration)
    (s : Substitution) : Build Bool :=
  match r.recipe with
  | .construct _ _ constructors => construct follow context node r s constructors
  | .factory _ steps isAsync => runFactory follow context node r s steps isAsync
  | .argument _ _ => return true

/-- Whether a failure would be the same elsewhere: no argument of a provider is visible, and there
are issues, of which none is a loop. -/
def isLasting (arguments : List Argument) (issues : List Issue) : Bool :=
  arguments.isEmpty && !issues.isEmpty && !issues.any fun i => i.message.isCycle

/-- The node of a binding: the shared one, or a new one made by its recipe. A lasting failure is
remembered. -/
def bindingNode (follow : Follow) (context : Context) (contract : Contract) (r : Registration)
    (id : BindingId) (s : Substitution) : Build (Option NodeId) := do
  let key := Key.binding id s
  let shared := SharedKey.of? r.lifetime id s context.block
  let st ← get
  match shared.bind fun k => st.shared.lookup k with
  | some n => return some n
  | none =>
      match st.failures.lookup key with
      | some issues =>
          set { st with issues := st.issues ++ issues }
          return none
      | none =>
          let node ← addNode {
            contract
            block := context.block
            origin := .binding id s none
            lifetime := r.lifetime
            scope := r.scope
            disposable := r.disposable
            label := if s.isEmpty then r.describe else r.describe ++ " [" ++ s.text ++ "]"
            location := r.location }
          let inner :=
            { context with path := context.path ++ [⟨key, node, context.segment, contract⟩] }
          if ← realize follow inner node r s then
            match shared with
            | some k => modify fun st => { st with shared := (k, node) :: st.shared }
            | none => pure ()
            return some node
          else
            let after ← get
            let issues := after.issues.drop st.issues.length
            if isLasting after.arguments issues then
              set { after with failures := (key, issues) :: after.failures }
            return none

/-- Connects a synthesized value to a dependency. A deferred one opens a block and a segment, in
which the arguments of the provider call are visible. -/
def connectPart (follow : Follow) (context : Context) (node : NodeId)
    (providerArgs : List TypeExpr) (site : Site) (d : Dependency) (position : Nat) :
    Build Bool := do
  let wire : Wire := ⟨d.request, d.timing, position, "", .unknown⟩
  match d.timing with
  | .eager => connect follow context node wire site
  | .deferred =>
      let st ← get
      let block := st.graph.blocks
      let visible := providerArgs.zipIdx.map fun a => (⟨a.1, .argument block a.2⟩ : Argument)
      set { st with
        graph := st.graph.addBlock
        nextSegment := st.nextSegment + 1
        arguments := visible.reverse ++ st.arguments }
      let ok ← connect follow { context with segment := st.nextSegment, block } node wire site
      modify fun after => { after with
        arguments := after.arguments.drop (after.arguments.length - st.arguments.length) }
      return ok

/-- Connects a synthesized value to its dependencies from a position on. -/
def connectParts (follow : Follow) (context : Context) (node : NodeId)
    (providerArgs : List TypeExpr) (site : Site) : (position : Nat) → List Dependency → Build Bool
  | _, [] => return true
  | position, d :: rest => do
      let here ← connectPart follow context node providerArgs site d position
      let others ← connectParts follow context node providerArgs site (position + 1) rest
      return here && others

/-- The node of a synthesized value. -/
def synthesizedNode (follow : Follow) (context : Context) (contract : Contract)
    (strategy : Strategy) (dependencies : List Dependency) (providerArgs : List TypeExpr)
    (site : Site) : Build (Option NodeId) := do
  let node ← addNode {
    contract
    block := context.block
    origin := .synthesized strategy providerArgs
    lifetime := .transient
    scope := none
    disposable := false
    label := strategy.label
    location := site.location }
  let inner := { context with
    path := context.path ++ [⟨.contract contract, node, context.segment, contract⟩] }
  let ok ← connectParts follow inner node providerArgs site 0 dependencies
  return if ok then some node else none

/-- Follows a request. The dependencies of a binding are followed by `below`; those of a synthesized
value ask for parts of its type, so that the size of the type bounds `fuel`. -/
def followWith (resolver : Resolver) (below : Follow) : (fuel : Nat) → Follow
  | 0, _, _, _, _ => throw .exhausted
  | fuel + 1, context, request, timing, site => do
      let visible ←
        if request.pin.isNone && request.contract.tag.isNone then argument? request.contract.type
        else pure none
      match visible with
      | some n => return some n
      | none =>
          match resolver.resolve request with
          | .unresolved =>
              report ⟨site.location, .unableToResolve request.contract.text site.consumer⟩
              return none
          | .binding id s =>
              touch id
              match resolver.table.bindings[id]? with
              | none => throw (.absentBinding id)
              | some r =>
                  match ← decide? context (.binding id s) request.contract timing
                      (r.lifetime != .transient) site with
                  | some decided => return decided
                  | none =>
                      if ← refuses context id site then return none
                      else bindingNode below context request.contract r id s
          | .synthesized strategy dependencies providerArgs =>
              match ← decide? context (.contract request.contract) request.contract timing false
                  site with
              | some decided => return decided
              | none =>
                  synthesizedNode (followWith resolver below fuel) context request.contract
                    strategy dependencies providerArgs site

/-- Follows a request through at most a number of bindings under construction. -/
def follow (resolver : Resolver) : (bindings : Nat) → Follow
  | 0, _, _, _, _ => throw .exhausted
  | bindings + 1, context, request, timing, site =>
      followWith resolver (follow resolver bindings) request.contract.type.size context request
        timing site

/-- More bindings than are ever under construction at once. -/
def pathBound (resolver : Resolver) : Nat :=
  maxSpecializations * resolver.table.bindings.length + 1

/-- The graph of a root, and what was found building it. -/
structure RootBuild where
  /-- The graph; it has no root when the contract of the root failed. -/
  graph : Graph
  /-- The issues in the order of discovery. -/
  issues : List Issue
  /-- The bindings reached, those of rejected constructors included. -/
  touched : List BindingId
  /-- The loops reported so far. -/
  cycles : CycleLog
  deriving Repr

/-- Whether the root and everything it needs are resolved. -/
def RootBuild.isResolved (b : RootBuild) : Bool := b.graph.root.isSome

/-- Follows the request of a root and sets the root of the graph. -/
def followRoot (resolver : Resolver) (root : Table.Root) : Build Unit := do
  let answer ← follow resolver (pathBound resolver) ⟨[], 0, 0⟩ (.free root.contract) .eager
    ⟨root.describe, root.location⟩
  match answer with
  | some n => modify fun s => { s with graph := s.graph.setRoot n }
  | none => return ()

/-- Builds the graph of a root, after loops that were reported for other roots. -/
def buildRoot (resolver : Resolver) (root : Table.Root) (cycles : CycleLog) :
    Except Fault RootBuild := do
  let (_, s) ← (followRoot resolver root).run (.start cycles)
  return ⟨s.graph, s.issues, s.touched, s.cycles⟩

end Injector.Wiring
