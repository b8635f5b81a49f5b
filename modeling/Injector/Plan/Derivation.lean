import Injector.Graph.Basic
import Injector.Plan.Basic
import Injector.Table.Basic

/-!
# Deriving plans from graphs

Slots are numbered in the order in which they are first needed. A routine lists a node after all
that it eagerly depends on, each node once; a deferred dependency becomes a provider, whose routine
is derived later and once for each target.
-/

namespace Injector.Plan

/-- What has been planned so far. -/
structure Planner where
  /-- The nodes that have slots, in the order of the slots. -/
  slots : List NodeId
  /-- The targets of providers; the routine of the first is number one. -/
  routines : List NodeId
  /-- The routines still to be derived, the last one asked for first. -/
  pending : List (NodeId × Nat)
  /-- The nodes for which there are steps, in the order of these. -/
  created : List NodeId
  /-- The arguments of the root member. -/
  rootArguments : List RootArgument
  /-- The nodes entered by the present routine. -/
  entered : List NodeId
  /-- The steps of the present routine. -/
  steps : List Step
  deriving Repr, Inhabited

/-- A step of planning. -/
abbrev Planning (α : Type) : Type := StateT Planner (Except Fault) α

/-- The slot of a node, which gets the next number if it has none. -/
def slotOf (n : NodeId) : Planning Nat := do
  let p ← get
  match p.slots.idxOf? n with
  | some i => return i
  | none =>
      set { p with slots := p.slots ++ [n] }
      return p.slots.length

/-- The routine that produces a node behind a provider. -/
def routineOf (n : NodeId) : Planning Nat := do
  let p ← get
  match p.routines.idxOf? n with
  | some i => return i + 1
  | none =>
      let id := p.routines.length + 1
      set { p with routines := p.routines ++ [n], pending := (n, id) :: p.pending }
      return id

/-- The strategy of the provider that a node is. -/
def providerStrategy (node : Node) : Strategy :=
  match node.origin with
  | .synthesized strategy _ => strategy
  | _ => .func

/-- The factory variables, with their positions, that no dependency supplies. -/
def inlineOperands (steps : List FactoryStep) (supplied : List (Nat × Operand)) :
    List (Nat × Operand) :=
  steps.zipIdx.filterMap fun s =>
    match s.1 with
    | .inject variableName _ _ _ =>
        if supplied.any fun o => o.1 == s.2 then none else some (s.2, .inline variableName)
    | .override .. => none

/-- Adds an argument of the root member unless there is one of that name. -/
def addRootArgument (name : String) (contract : Contract) : Planning Unit :=
  modify fun p =>
    if p.rootArguments.any fun a => a.name == name then p
    else { p with rootArguments := p.rootArguments ++ [⟨name, contract⟩] }

/-- How a node is made, and the operands that no edge supplies; a provider argument is not made. -/
def actionOf (table : Table) (node : Node) (supplied : List (Nat × Operand)) :
    Planning (Option (Action × List (Nat × Operand))) := do
  match node.origin with
  | .argument _ _ => return none
  | .synthesized strategy _ => return some (.synthesize strategy, [])
  | .binding id _ constructor =>
      match table.bindings[id]? with
      | none => throw (.absentBinding id)
      | some r =>
          match r.recipe with
          | .construct implementation _ _ =>
              return some (.construct implementation.text constructor, [])
          | .factory expression steps _ =>
              return some (.factory expression, inlineOperands steps supplied)
          | .argument name source =>
              if source = .root then addRootArgument name node.contract
              return some (.argument name source, [])

/-- The operands that edges supply, each with its position; `visit` plans eager dependencies. -/
def suppliedOperands (g : Graph) (visit : NodeId → Planning Unit) (node : Node) :
    List Edge → Planning (List (Nat × Operand))
  | [] => return []
  | e :: rest => do
      let child ← (g.node e.target : Except Fault Node)
      let operand : Operand ← match child.origin, e.timing with
        | .argument _ index, _ => pure (.providerArgument index)
        | _, .eager => do
            visit e.target
            pure (.slot (← slotOf e.target))
        | _, .deferred => do
            pure (.provider (← routineOf e.target) (providerStrategy node))
      return (e.position, operand) :: (← suppliedOperands g visit node rest)

/-- Plans a node and all that it eagerly depends on. Nodes are entered once, so that there are no
more within each other than the graph has. -/
def collect (g : Graph) (table : Table) : (fuel : Nat) → NodeId → Planning Unit
  | 0, _ => throw .exhausted
  | fuel + 1, n => do
      let p ← get
      if n ∈ p.entered then return ()
      else
        set { p with entered := n :: p.entered }
        let node ← (g.node n : Except Fault Node)
        match node.origin with
        | .argument _ _ => return ()
        | _ =>
            let supplied ← suppliedOperands g (collect g table fuel) node (g.dependencies n)
            match ← actionOf table node supplied with
            | none => return ()
            | some (action, inline) =>
                modify fun p =>
                  if n ∈ p.created then p else { p with created := p.created ++ [n] }
                let slot ← slotOf n
                let operands := (sortOn Prod.fst (supplied ++ inline)).map Prod.snd
                modify fun p => { p with steps := p.steps ++
                  [⟨slot, node.contract, node.lifetime, action, operands,
                    node.lifetime != .transient⟩] }

/-- Derives the routine that produces a node. -/
def routine (g : Graph) (table : Table) (target : NodeId) (id : Nat) : Planning Routine := do
  modify fun p => { p with entered := [], steps := [] }
  collect g table (g.nodes.size + 1) target
  let slot ← slotOf target
  return ⟨id, slot, (← get).steps⟩

/-- Derives the routines that are asked for, until none is; each node has at most one. -/
def providerRoutines (g : Graph) (table : Table) : (fuel : Nat) → Planning (List Routine)
  | 0 => do
      if (← get).pending.isEmpty then return [] else throw .exhausted
  | fuel + 1 => do
      let p ← get
      match p.pending with
      | [] => return []
      | (target, id) :: pending =>
          set { p with pending }
          let first ← routine g table target id
          return first :: (← providerRoutines g table fuel)

/-- The slots to dispose: what was made last goes first. -/
def disposalOf (nodes : List (NodeId × Node)) (slots : List NodeId) : Disposal :=
  let disposed := nodes.reverse.filter fun n => n.2.disposable
  let slotsWhere (p : Node → Bool) : List Nat :=
    (disposed.filter fun n => p n.2).filterMap fun n => slots.idxOf? n.1
  ⟨slotsWhere fun n => n.lifetime.isLongLived, slotsWhere fun n => !n.lifetime.isLongLived⟩

/-- Nodes with their contents. -/
def nodesOf (g : Graph) (ns : List NodeId) : Except Fault (List (NodeId × Node)) :=
  ns.mapM fun n => do return (n, ← g.node n)

/-- A planner that has planned nothing. -/
def Planner.initial : Planner := ⟨[], [], [], [], [], [], []⟩

/-- Derives the routine that produces a node, and then those behind providers, in the order in which
they are planned: always the one that was asked for last. -/
def routinesOf (g : Graph) (table : Table) (start : NodeId) :
    Planning (Routine × List Routine) := do
  let entry ← routine g table start 0
  return (entry, ← providerRoutines g table (g.nodes.size + 1))

/-- The plan of a root, unless it is unresolved. -/
def derive? (g : Graph) (root : Table.Root) (table : Table) : Except Fault (Option Plan) := do
  match g.root with
  | none => return none
  | some start => do
      let ((entry, providers), p) ← (routinesOf g table start).run .initial
      let held ← nodesOf g p.slots
      let created ← nodesOf g p.created
      return some {
        composition := table.composition
        root := root.describe
        kind := root.kind
        threadSafe := table.hints.threadSafe
        entry
        providers := sortOn Routine.id providers
        slots := held.zipIdx.map fun n =>
          ⟨n.2, n.1.2.contract, n.1.2.lifetime, n.1.2.scope⟩
        rootArguments := p.rootArguments
        disposal := disposalOf created p.slots }

end Injector.Plan
