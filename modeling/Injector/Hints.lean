import Injector.Culture
import Injector.Diagnostic.Kind
import Injector.Dictionary

/-!
# Hints

Hints are settings by name. Those of the caller come first, and each merged setup overlays them in
the order of dependency, so that a dependent setup has the last word on every key.
-/

namespace Injector

/-- Settings by name. -/
abbrev Hints := Dictionary String

namespace Hints

/-- The truth value of a hint; values other than the four words leave the default. -/
def flag (hints : Hints) (key : String) (default : Bool) : Bool :=
  match (hints.get? key).map fun v => Text.lower (Text.trim v) with
  | some v =>
      if v = "on" ∨ v = "true" then true
      else if v = "off" ∨ v = "false" then false
      else default
  | none => default

/-- Whether resolve methods are made. -/
def resolveMethods (hints : Hints) : Bool := hints.flag "Resolve" true

/-- Whether shared slots are initialised for several threads. -/
def threadSafe (hints : Hints) : Bool := hints.flag "ThreadSafe" true

/-- The language that the hints ask for. -/
def culture (hints : Hints) : Option Culture := (hints.get? "Culture").map Culture.ofTagOrEnglish

/-- The severity that the hints ask for; a hint of its own for contracts that are not implemented
goes before the hint that every kind has. -/
def severityFor (hints : Hints) (kind : DiagnosticKind) : Option Severity :=
  let own : Option Severity :=
    if kind = .notImplementedContract then
      (hints.get? "SeverityOfNotImplementedContract").bind Severity.ofHint?
    else none
  own <|> (hints.get? ("Severity." ++ kind.name)).bind Severity.ofHint?

end Hints

end Injector
