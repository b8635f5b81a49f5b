import Injector.Dictionary
import Injector.TypeExpr.Basic

/-!
# Substitutions for generic markers

A substitution chooses types for markers. Applying it replaces every chosen marker at once: the
types put in are not searched for markers again.
-/

namespace Injector

/-- The types chosen for markers, listed by marker name. -/
abbrev Substitution := Dictionary TypeExpr

namespace Substitution

/-- The text `M=T` of every choice, divided by a comma and a space. -/
def text (s : Substitution) : String :=
  ", ".intercalate (s.entries.map fun e => e.1 ++ "=" ++ e.2.text)

end Substitution

namespace TypeExpr

mutual

/-- Replaces every marker that `s` chooses a type for. -/
def substitute (s : Substitution) : TypeExpr → TypeExpr
  | .named name args => .named name (substituteAll s args)
  | .marker name => (s.get? name).getD (.marker name)
  | .array element => .array (element.substitute s)
  | .tuple items => .tuple (substituteAll s items)

/-- Replaces markers in several types. -/
def substituteAll (s : Substitution) : List TypeExpr → List TypeExpr
  | [] => []
  | t :: ts => t.substitute s :: substituteAll s ts

end

end TypeExpr

end Injector
