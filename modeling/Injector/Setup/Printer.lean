import Injector.Setup.Basic

/-!
# Setups as JSON

Every field is written, defaults too; only a lifetime, tag, type, scope or ordinal that is not
declared, and an empty list of tags, are left out.
-/

namespace Injector

/-- A dictionary of texts as JSON. -/
def Dictionary.toJson (d : Dictionary String) : Json :=
  .object (d.entries.map fun e => (e.1, .string e.2))

/-- The declared contract as JSON. -/
def ContractSpec.toJson (c : ContractSpec) : Json :=
  .object ([("type", c.type.toJson)] ++
    if c.tags.isEmpty then [] else [("tags", .list TagSpec.toJson c.tags)])

/-- The parameter as JSON. -/
def Injection.toJson (i : Injection) : Json :=
  .object ([("name", .string i.name), ("type", i.type.toJson)] ++
    Json.optional "tag" TagSpec.toJson i.tag ++ [("location", i.location.toJson)])

/-- The constructor as JSON. -/
def Constructor.toJson (c : Constructor) : Json :=
  .object ([("parameters", .list Injection.toJson c.parameters)] ++
    Json.optional "ordinal" Json.integer c.ordinal)

/-- The statement as JSON. -/
def FactoryStep.toJson : FactoryStep → Json
  | .inject variableName type tag location =>
      .object [("inject", .object ([("variable", .string variableName)] ++
        Json.optional "type" TypeExpr.toJson type ++ Json.optional "tag" TagSpec.toJson tag ++
        [("location", location.toJson)]))]
  | .override variableName type location =>
      .object [("override", .object ([("variable", .string variableName)] ++
        Json.optional "type" TypeExpr.toJson type ++ [("location", location.toJson)]))]

/-- The recipe as JSON. -/
def Recipe.toJson : Recipe → Json
  | .construct implementation implements constructors =>
      .object [("construct", .object ([("implementation", implementation.toJson)] ++
        Json.optional "implements" (Json.list TypeExpr.toJson) implements ++
        [("constructors", .list Constructor.toJson constructors)]))]
  | .factory expression steps isAsync =>
      .object [("factory", .object [("expression", .string expression),
        ("steps", .list FactoryStep.toJson steps), ("async", .bool isAsync)])]
  | .argument name source =>
      .object [("arg", .object [("name", .string name), ("kind", .string source.name)])]

/-- The binding as JSON. -/
def Binding.toJson (b : Binding) : Json :=
  .object ([("contracts", .list ContractSpec.toJson b.contracts)] ++
    Json.optional "lifetime" Lifetime.toJson b.lifetime ++ [("recipe", b.recipe.toJson)] ++
    Json.optional "scope" Json.string b.scope ++
    [("disposable", .bool b.disposable), ("location", b.location.toJson)])

/-- The root as JSON. -/
def Root.toJson (r : Root) : Json :=
  .object ([("name", .string r.name), ("type", r.type.toJson)] ++
    Json.optional "tag" TagSpec.toJson r.tag ++
    [("kind", .string r.kind.name), ("location", r.location.toJson)])

/-- The member as JSON. -/
def Member.toJson (m : Member) : Json :=
  .object [("name", .string m.name), ("is_static", .bool m.isStatic),
    ("location", m.location.toJson)]

/-- The setup as JSON. -/
def Setup.toJson (s : Setup) : Json :=
  .object ([("name", .string s.name), ("kind", .string s.kind.name),
    ("bindings", .list Binding.toJson s.bindings), ("roots", .list Root.toJson s.roots),
    ("depends_on", .list Json.string s.dependsOn)] ++
    Json.optional "default_lifetime" Lifetime.toJson s.defaultLifetime ++
    [("hints", s.hints.toJson), ("markers", .list Json.string s.markers),
    ("members", .list Member.toJson s.members), ("location", s.location.toJson)])

end Injector
