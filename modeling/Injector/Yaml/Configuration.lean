import Injector.Configuration
import Injector.Yaml.Node
import Injector.Yaml.Scalar

/-!
# Configurations in YAML

Settings are read from the nodes of a document by what each field expects, whatever its scalar looks
like: a text may be any scalar, and a truth value or a number is a plain one. What is left out is an
empty map or list, and unknown fields may hold anything.
-/

namespace Injector

namespace Yaml.Node

/-- Whether nothing is written. -/
def isEmpty : Node → Bool
  | .scalar .plain text => text.isEmpty
  | _ => false

/-- The text of a scalar. -/
def text? : Node → Option String
  | .scalar _ text => some text
  | _ => none

/-- The truth value of a plain scalar. -/
def bool? : Node → Option Bool
  | .scalar .plain text => truth? text
  | _ => none

/-- The natural of 64 bits in a plain scalar. -/
def natural? : Node → Option Nat
  | .scalar .plain text => word? text
  | _ => none

/-- What is read by `decode`, unless it is left out or null. -/
def optional? {α : Type} (decode : Node → Option α) : Node → Option (Option α)
  | .scalar .plain text =>
      if text.isEmpty || isNull text then some none
      else (decode (.scalar .plain text)).map some
  | n => (decode n).map some

/-- The items of a list, each read by `decode`. -/
def listOf? {α : Type} (decode : Node → Option α) : Node → Option (List α)
  | .list items => items.mapM decode
  | n => if n.isEmpty then some [] else none

/-- The pairs of a map with scalars for keys. -/
def fields? : Node → Option (Fields Node)
  | .map pairs => pairs.mapM fun p => p.1.text?.map (·, p.2)
  | n => if n.isEmpty then some [] else none

/-- The known fields of a record. -/
def record? (names : List String) (n : Node) : Option (Fields Node) := do
  let known := (← n.fields?).filter (·.1 ∈ names)
  if (known.map Prod.fst).Nodup then some known else none

/-- A map from text to text; of a repeated key the last value stands. -/
def textMap? (n : Node) : Option (Dictionary String) := do
  let entries ← (← n.fields?).mapM fun f => f.2.text?.map (f.1, ·)
  return Dictionary.ofList entries

end Yaml.Node

/-- Reads a language. -/
def Culture.ofNode? (n : Yaml.Node) : Option Culture := n.text?.bind Culture.ofName?

/-- Reads a strategy. -/
def Strategy.ofNode? (n : Yaml.Node) : Option Strategy := n.text?.bind Strategy.ofName?

/-- Reads a registration. -/
def ShapeRegistration.ofNode? (n : Yaml.Node) : Option ShapeRegistration := do
  let fields ← n.record? ["name", "arity", "strategy"]
  return {
    name := ← fields.required "name" Yaml.Node.text?
    arity := ← fields.withDefault "arity" (Yaml.Node.optional? Yaml.Node.natural?) none
    strategy := ← fields.required "strategy" Strategy.ofNode? }

/-- Reads settings; every field may be missing. -/
def Configuration.ofNode? (n : Yaml.Node) : Option Configuration := do
  let fields ← n.record? ["culture", "hints", "parallel", "collection_shapes"]
  return {
    culture := ← fields.withDefault "culture" Culture.ofNode? default.culture
    hints := ← fields.withDefault "hints" Yaml.Node.textMap? default.hints
    parallel := ← fields.withDefault "parallel" Yaml.Node.bool? default.parallel
    shapes := ← fields.withDefault "collection_shapes"
      (Yaml.Node.listOf? ShapeRegistration.ofNode?) default.shapes }

end Injector
