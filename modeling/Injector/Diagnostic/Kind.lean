import Injector.Text.Blank

/-!
# Kinds and severities of diagnostics

Every diagnostic has a kind with a stable name and code, and every kind a severity of its own.
Errors keep it, except for contracts that are not implemented; hints may change the others.
-/

namespace Injector

/-- How serious a diagnostic is. -/
inductive Severity where
  /-- It is left out of reports. -/
  | hidden
  /-- It informs. -/
  | info
  /-- It warns. -/
  | warning
  /-- It makes a root or a composition unusable. -/
  | error
  deriving DecidableEq, Repr, Inhabited

namespace Severity

/-- The severities. -/
def all : List Severity := [.hidden, .info, .warning, .error]

/-- The name of a severity. -/
def name : Severity → String
  | .hidden => "Hidden"
  | .info => "Info"
  | .warning => "Warning"
  | .error => "Error"

/-- The name of a severity in running text. -/
def word (s : Severity) : String := Text.lower s.name

/-- The severity that a hint asks for. -/
def ofHint? (value : String) : Option Severity :=
  all.find? fun s => s.word == Text.lower (Text.trim value)

end Severity

/-- What a diagnostic is about. -/
inductive DiagnosticKind where
  /-- Nothing answers a contract. -/
  | unableToResolve
  /-- A loop of eager dependencies. -/
  | cyclicDependency
  /-- A long-lived instance holds a shorter-lived one. -/
  | lifetimeDefect
  /-- A factory injection without a definite type. -/
  | typeCannotBeInferred
  /-- A factory that suspends. -/
  | asyncFactoryNotSupported
  /-- Setups that depend on each other. -/
  | dependsOnCycle
  /-- A setup that is not declared. -/
  | setupNotFound
  /-- Two roots under one name or contract. -/
  | duplicateRoot
  /-- An argument whose type holds a marker. -/
  | genericArgument
  /-- An implementation without one of its contracts. -/
  | notImplementedContract
  /-- A binding that was replaced and is not used. -/
  | bindingNotUsed
  /-- A binding that replaces an earlier one. -/
  | overriddenBinding
  /-- A binding that no root reaches. -/
  | metadataDefect
  /-- An injected variable that its factory does not mention. -/
  | injectionSiteNotUsed
  /-- A member of an instance, taken over from another setup. -/
  | instanceMemberInDependsOnSetup
  /-- A generic root, which resolve methods cannot serve. -/
  | typeArgInResolveMethod
  deriving DecidableEq, Repr, Inhabited

namespace DiagnosticKind

/-- The kinds in the order of their codes, errors first. -/
def all : List DiagnosticKind :=
  [.unableToResolve, .cyclicDependency, .lifetimeDefect, .typeCannotBeInferred,
    .asyncFactoryNotSupported, .dependsOnCycle, .setupNotFound, .duplicateRoot, .genericArgument,
    .notImplementedContract, .bindingNotUsed, .overriddenBinding, .metadataDefect,
    .injectionSiteNotUsed, .instanceMemberInDependsOnSetup, .typeArgInResolveMethod]

/-- The stable name of a kind. -/
def name : DiagnosticKind → String
  | .unableToResolve => "ErrorUnableToResolve"
  | .cyclicDependency => "ErrorCyclicDependency"
  | .lifetimeDefect => "ErrorLifetimeDefect"
  | .typeCannotBeInferred => "ErrorTypeCannotBeInferred"
  | .asyncFactoryNotSupported => "ErrorAsyncFactoryNotSupported"
  | .dependsOnCycle => "ErrorDependsOnCycle"
  | .setupNotFound => "ErrorSetupNotFound"
  | .duplicateRoot => "ErrorDuplicateRoot"
  | .genericArgument => "ErrorGenericArgument"
  | .notImplementedContract => "ErrorNotImplementedContract"
  | .bindingNotUsed => "WarningBindingNotUsed"
  | .overriddenBinding => "WarningOverriddenBinding"
  | .metadataDefect => "WarningMetadataDefect"
  | .injectionSiteNotUsed => "WarningInjectionSiteNotUsed"
  | .instanceMemberInDependsOnSetup => "WarningInstanceMemberInDependsOnSetup"
  | .typeArgInResolveMethod => "WarningTypeArgInResolveMethod"

/-- The short code of a kind. -/
def code : DiagnosticKind → String
  | .unableToResolve => "PWE001"
  | .cyclicDependency => "PWE002"
  | .lifetimeDefect => "PWE003"
  | .typeCannotBeInferred => "PWE004"
  | .asyncFactoryNotSupported => "PWE005"
  | .dependsOnCycle => "PWE006"
  | .setupNotFound => "PWE007"
  | .duplicateRoot => "PWE008"
  | .genericArgument => "PWE009"
  | .notImplementedContract => "PWE010"
  | .bindingNotUsed => "PWW001"
  | .overriddenBinding => "PWW002"
  | .metadataDefect => "PWW003"
  | .injectionSiteNotUsed => "PWW004"
  | .instanceMemberInDependsOnSetup => "PWW005"
  | .typeArgInResolveMethod => "PWW006"

/-- The severity of a kind before hints. -/
def severity : DiagnosticKind → Severity
  | .unableToResolve | .cyclicDependency | .lifetimeDefect | .typeCannotBeInferred
  | .asyncFactoryNotSupported | .dependsOnCycle | .setupNotFound | .duplicateRoot
  | .genericArgument | .notImplementedContract => .error
  | .bindingNotUsed | .overriddenBinding | .metadataDefect | .injectionSiteNotUsed
  | .instanceMemberInDependsOnSetup | .typeArgInResolveMethod => .warning

/-- Whether the kind is an error before hints. -/
def isError (k : DiagnosticKind) : Bool := k.severity == .error

/-- Whether hints may change the severity. -/
def isReclassifiable (k : DiagnosticKind) : Bool := !k.isError || k == .notImplementedContract

/-- The kind of a name. -/
def ofName? (s : String) : Option DiagnosticKind := all.find? fun k => k.name == s

end DiagnosticKind

end Injector
