import Injector.Graph.Basic

/-!
# Graphs as JSON

Nodes are listed by number, and edges by the number of the edge.
-/

namespace Injector

/-- The name of a timing in documents. -/
def Timing.name : Timing → String
  | .eager => "eager"
  | .deferred => "deferred"

/-- The origin as JSON. -/
def Origin.toJson : Origin → Json
  | .binding id substitution constructor =>
      .object [("binding", .object [("binding", .count id),
        ("substitution", .string substitution.text),
        ("constructor", .ofOption Json.count constructor)])]
  | .synthesized strategy providerArgs =>
      .object [("virtual", .object [("strategy", strategy.toJson),
        ("provider_args", .list TypeExpr.toJson providerArgs)])]
  | .argument block index =>
      .object [("provider_argument", .object [("block", .count block), ("index", .count index)])]

/-- The node as JSON. -/
def Node.toJson (id : NodeId) (n : Node) : Json :=
  .object [("id", .count id), ("contract", n.contract.toJson), ("block", .count n.block),
    ("origin", n.origin.toJson), ("lifetime", n.lifetime.toJson),
    ("scope", .ofOption Json.string n.scope), ("disposable", .bool n.disposable),
    ("label", .string n.label), ("location", n.location.toJson)]

/-- The edge as JSON. -/
def Edge.toJson (e : Edge) : Json :=
  .object [("from", .count e.source), ("to", .count e.target), ("kind", .string e.timing.name),
    ("position", .count e.position), ("site", .string e.site), ("location", e.location.toJson)]

/-- The graph as JSON. -/
def Graph.toJson (g : Graph) : Json :=
  .object [("root", .ofOption Json.count g.root),
    ("nodes", .list (fun n => n.2.toJson n.1) g.nodes.ascending),
    ("edges", .list (fun e => e.2.toJson) g.edges.ascending)]

end Injector
