import Injector.Diagnostic.Message
import Injector.Hints
import Injector.Location

/-!
# Collecting diagnostics

Issues are collected in the order in which they are found, each once. Severities and wording come at
the end: hints decide what is shown and how serious it is, never what was found.
-/

namespace Injector

/-- A message about a place. -/
structure Issue where
  /-- The place. -/
  location : Location
  /-- The message. -/
  message : Message
  deriving DecidableEq, Repr, Inhabited

/-- A diagnostic as it is shown. -/
structure Diagnostic where
  /-- What it is about. -/
  kind : DiagnosticKind
  /-- How serious it is under the hints. -/
  severity : Severity
  /-- The worded message. -/
  message : String
  /-- The place it points to. -/
  location : Location
  deriving DecidableEq, Repr, Inhabited

namespace Diagnostic

/-- Whether the diagnostic is shown as an error. -/
def isError (d : Diagnostic) : Bool := d.severity == .error

/-- The line that shows a diagnostic. -/
def text (d : Diagnostic) : String :=
  d.location.text ++ ": " ++ d.severity.word ++ " " ++ d.kind.code ++ ": " ++ d.message

/-- The diagnostic as JSON. -/
def toJson (d : Diagnostic) : Json :=
  .object [("id", .string d.kind.name), ("code", .string d.kind.code),
    ("severity", .string d.severity.name), ("message", .string d.message),
    ("location", d.location.toJson)]

end Diagnostic

/-- The severity of a kind under hints. -/
def Hints.effectiveSeverity (hints : Hints) (kind : DiagnosticKind) : Severity :=
  if kind.isReclassifiable then (hints.severityFor kind).getD kind.severity else kind.severity

/-- The issues found so far, each once and in the order of discovery. -/
structure Sink where
  /-- The issues. -/
  issues : List Issue
  deriving DecidableEq, Repr, Inhabited

namespace Sink

/-- Nothing found yet. -/
def empty : Sink := ⟨[]⟩

/-- Adds an issue unless it is there already. -/
def report (sink : Sink) (issue : Issue) : Sink :=
  if issue ∈ sink.issues then sink else ⟨sink.issues ++ [issue]⟩

/-- Adds several issues in turn. -/
def reportAll (sink : Sink) (issues : List Issue) : Sink := issues.foldl report sink

/-- Whether an issue is an error under the hints. -/
def hasErrors (sink : Sink) (hints : Hints) : Bool :=
  sink.issues.any fun issue => hints.effectiveSeverity issue.message.kind == .error

/-- The diagnostic that shows an issue, unless the hints hide it. -/
def shown? (hints : Hints) (culture : Culture) (issue : Issue) : Option Diagnostic :=
  let severity := hints.effectiveSeverity issue.message.kind
  if severity = .hidden then none
  else some ⟨issue.message.kind, severity, issue.message.text culture, issue.location⟩

/-- The diagnostics to show. -/
def finish (sink : Sink) (hints : Hints) (culture : Culture) : List Diagnostic :=
  sink.issues.filterMap (shown? hints culture)

/-- Reporting keeps every issue and adds at most the one reported. -/
@[simp] theorem mem_report {sink : Sink} {issue x : Issue} :
    x ∈ (sink.report issue).issues ↔ x ∈ sink.issues ∨ x = issue := by
  rw [report]
  split
  · next h => exact ⟨.inl, fun hx => hx.elim id fun hx => hx ▸ h⟩
  · simp

end Sink

end Injector
