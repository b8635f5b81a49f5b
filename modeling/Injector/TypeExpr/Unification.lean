import Injector.TypeExpr.Substitution

/-!
# Matching a pattern against a type

The markers of a pattern take the types found at their places. A marker that occurs twice has to
find the same type twice, and a marker of the type matched against is opaque: only a marker of
the pattern, whatever its name, takes it.
-/

namespace Injector.TypeExpr

mutual

/-- Extends the choices of `s` so that the pattern becomes the type. -/
def matchFrom (s : Substitution) : (pattern concrete : TypeExpr) → Option Substitution
  | .marker name, concrete =>
      match s.get? name with
      | some chosen => if chosen = concrete then some s else none
      | none => some (s.insert name concrete)
  | .named p ps, .named c cs => if p = c then matchAllFrom s ps cs else none
  | .array p, .array c => matchFrom s p c
  | .tuple ps, .tuple cs => matchAllFrom s ps cs
  | _, _ => none

/-- Extends the choices of `s` along two lists of one length. -/
def matchAllFrom (s : Substitution) : (patterns concretes : List TypeExpr) → Option Substitution
  | [], [] => some s
  | p :: ps, c :: cs => (matchFrom s p c).bind fun s => matchAllFrom s ps cs
  | _, _ => none

end

/-- The choices for the markers of `pattern` that make it `concrete`, if there are any. -/
def unify (pattern concrete : TypeExpr) : Option Substitution :=
  matchFrom Dictionary.empty pattern concrete

end Injector.TypeExpr
