import Injector.Setup.Basic

/-!
# Reading setups from documents

Names of lifetimes, kinds and fields are matched to the letter. A field that is not declared takes
its default; `null` stands for a missing value only where there may be none.
-/

namespace Injector

/-- Reads a declared contract. -/
def ContractSpec.ofDatum? (d : Datum) : Option ContractSpec := do
  let fields ← d.record? ["type", "tags"]
  return {
    type := ← fields.required "type" TypeExpr.ofDatum?
    tags := ← fields.withDefault "tags" (Datum.listOf? TagSpec.ofDatum?) [] }

/-- Reads a parameter. -/
def Injection.ofDatum? (d : Datum) : Option Injection := do
  let fields ← d.record? ["name", "type", "tag", "location"]
  return {
    name := ← fields.required "name" Datum.text?
    type := ← fields.required "type" TypeExpr.ofDatum?
    tag := ← fields.optional "tag" TagSpec.ofDatum?
    location := ← fields.withDefault "location" Location.ofDatum? .unknown }

/-- Reads a constructor; its ordinal is an integer of 32 bits. -/
def Constructor.ofDatum? (d : Datum) : Option Constructor := do
  let fields ← d.record? ["parameters", "ordinal"]
  return {
    parameters := ← fields.withDefault "parameters" (Datum.listOf? Injection.ofDatum?) []
    ordinal := ← fields.optional "ordinal" (Datum.integer? (-2147483648) 2147483647) }

/-- Reads a statement of a factory. -/
def FactoryStep.ofDatum? (d : Datum) : Option FactoryStep := do
  let (variant, body) ← d.variant? ["inject", "override"]
  if variant = "inject" then
    let fields ← body.record? ["variable", "type", "tag", "location"]
    return .inject (← fields.required "variable" Datum.text?)
      (← fields.optional "type" TypeExpr.ofDatum?) (← fields.optional "tag" TagSpec.ofDatum?)
      (← fields.withDefault "location" Location.ofDatum? .unknown)
  else
    let fields ← body.record? ["variable", "type", "location"]
    return .override (← fields.required "variable" Datum.text?)
      (← fields.optional "type" TypeExpr.ofDatum?)
      (← fields.withDefault "location" Location.ofDatum? .unknown)

/-- Reads an argument source. -/
def ArgumentSource.ofDatum? (d : Datum) : Option ArgumentSource :=
  d.choice? ArgumentSource.all ArgumentSource.name

/-- Reads a recipe. -/
def Recipe.ofDatum? (d : Datum) : Option Recipe := do
  let (variant, body) ← d.variant? ["construct", "factory", "arg"]
  if variant = "construct" then
    let fields ← body.record? ["implementation", "implements", "constructors"]
    return .construct (← fields.required "implementation" TypeExpr.ofDatum?)
      (← fields.optional "implements" (Datum.listOf? TypeExpr.ofDatum?))
      (← fields.withDefault "constructors" (Datum.listOf? Constructor.ofDatum?) [])
  else if variant = "factory" then
    let fields ← body.record? ["expression", "steps", "async"]
    return .factory (← fields.required "expression" Datum.text?)
      (← fields.withDefault "steps" (Datum.listOf? FactoryStep.ofDatum?) [])
      (← fields.withDefault "async" Datum.bool? false)
  else
    let fields ← body.record? ["name", "kind"]
    return .argument (← fields.required "name" Datum.text?)
      (← fields.withDefault "kind" ArgumentSource.ofDatum? .composition)

/-- Reads a binding. -/
def Binding.ofDatum? (d : Datum) : Option Binding := do
  let fields ← d.record? ["contracts", "lifetime", "recipe", "scope", "disposable", "location"]
  return {
    contracts := ← fields.withDefault "contracts" (Datum.listOf? ContractSpec.ofDatum?) []
    lifetime := ← fields.optional "lifetime" Lifetime.ofDatum?
    recipe := ← fields.required "recipe" Recipe.ofDatum?
    scope := ← fields.optional "scope" Datum.text?
    disposable := ← fields.withDefault "disposable" Datum.bool? false
    location := ← fields.withDefault "location" Location.ofDatum? .unknown }

/-- Reads a kind of setup. -/
def SetupKind.ofDatum? (d : Datum) : Option SetupKind := d.choice? SetupKind.all SetupKind.name

/-- Reads a kind of root. -/
def RootKind.ofDatum? (d : Datum) : Option RootKind := d.choice? RootKind.all RootKind.name

/-- Reads a root. -/
def Root.ofDatum? (d : Datum) : Option Root := do
  let fields ← d.record? ["name", "type", "tag", "kind", "location"]
  return {
    name := ← fields.withDefault "name" Datum.text? ""
    type := ← fields.required "type" TypeExpr.ofDatum?
    tag := ← fields.optional "tag" TagSpec.ofDatum?
    kind := ← fields.withDefault "kind" RootKind.ofDatum? .property
    location := ← fields.withDefault "location" Location.ofDatum? .unknown }

/-- Reads a member. -/
def Member.ofDatum? (d : Datum) : Option Member := do
  let fields ← d.record? ["name", "is_static", "location"]
  return {
    name := ← fields.required "name" Datum.text?
    isStatic := ← fields.withDefault "is_static" Datum.bool? false
    location := ← fields.withDefault "location" Location.ofDatum? .unknown }

/-- Reads a setup. -/
def Setup.ofDatum? (d : Datum) : Option Setup := do
  let fields ← d.record? ["name", "kind", "bindings", "roots", "depends_on", "default_lifetime",
    "hints", "markers", "members", "location"]
  return {
    name := ← fields.required "name" Datum.text?
    kind := ← fields.withDefault "kind" SetupKind.ofDatum? .exposed
    bindings := ← fields.withDefault "bindings" (Datum.listOf? Binding.ofDatum?) []
    roots := ← fields.withDefault "roots" (Datum.listOf? Root.ofDatum?) []
    dependsOn := ← fields.withDefault "depends_on" (Datum.listOf? Datum.text?) []
    defaultLifetime := ← fields.optional "default_lifetime" Lifetime.ofDatum?
    hints := ← fields.withDefault "hints" Datum.textMap? .empty
    markers := ← fields.withDefault "markers" (Datum.listOf? Datum.text?) []
    members := ← fields.withDefault "members" (Datum.listOf? Member.ofDatum?) []
    location := ← fields.withDefault "location" Location.ofDatum? .unknown }

/-- Reads the setups of a document: a table with a list `setups`, a list of setups, or one setup.
The first of these readings that succeeds counts. -/
def Setup.listOfDatum? (d : Datum) : Option (List Setup) :=
  let table? : Option (List Setup) :=
    match d with
    | .map _ => do
        let fields ← d.record? ["setups"]
        fields.required "setups" (Datum.listOf? Setup.ofDatum?)
    | _ => none
  table? <|> Datum.listOf? Setup.ofDatum? d <|> (Setup.ofDatum? d).map fun s => [s]

end Injector
