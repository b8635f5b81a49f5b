import Injector.Yaml.Node
import Injector.Yaml.Scalar

/-!
# Values of YAML

Every plain scalar is read by what it looks like, and every other one is a text. Lists and maps nest
at most 128 deep.
-/

namespace Injector.Yaml

/-- The most lists and maps that may stand within each other. -/
def maxDepth : Nat := 128

/-- The value of a node in which so many lists and maps may stand within each other. -/
def Node.datum? : Node → (depth : Nat) → Option Datum
  | .scalar .plain text, _ => plainValue? text
  | .scalar .quoted text, _ => some (.text text)
  | .list items, depth + 1 =>
      let item? (n : Node) : Option Datum := n.datum? depth
      (items.mapM item?).map .list
  | .map pairs, depth + 1 =>
      let entry? (p : Node × Node) : Option (Datum × Datum) := do
        return (← p.1.datum? depth, ← p.2.datum? depth)
      (pairs.mapM entry?).map .map
  | _, 0 => none

/-- Reads a whole text as one value. -/
def read? (text : String) : Option Datum := (Node.ofText? text).bind (·.datum? maxDepth)

end Injector.Yaml
