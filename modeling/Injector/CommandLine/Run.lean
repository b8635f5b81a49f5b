import Injector.CommandLine.Basic
import Injector.Document
import Injector.Graph.Printer
import Injector.Graph.Tree
import Injector.Json.Printer
import Injector.Plan.Printer
import Injector.Report.Printer

/-!
# Carrying out commands

A command reads the settings and then the setups, makes the report and prints a part of it. A
declaration with a line but without a file is in the document that it was read from.
-/

namespace Injector

/-- The location, in a file if it has a line and no file. -/
def Location.inFile (file : String) (l : Location) : Location :=
  if l.isUnknown ∧ 0 < l.line then { l with file } else l

/-- The setup as a part of a file: its own place and those of its bindings and roots are in it. -/
def Setup.inFile (file : String) (s : Setup) : Setup :=
  { s with
    location := s.location.inFile file
    bindings := s.bindings.map fun b => { b with location := b.location.inFile file }
    roots := s.roots.map fun r => { r with location := r.location.inFile file } }

namespace CommandLine

/-- The texts of files by their paths. -/
abbrev Files := String → Option String

/-- Why a document cannot be used. -/
inductive LoadCause where
  /-- There is no such file. -/
  | unreadable
  /-- It does not hold what is read from it. -/
  | malformed (e : DocumentError)
  deriving DecidableEq, Repr

/-- Why a command fails. -/
inductive RunError where
  /-- The settings cannot be used. -/
  | configuration (path : String) (cause : LoadCause)
  /-- The setups cannot be used. -/
  | setups (path : String) (cause : LoadCause)
  /-- No root has the name. -/
  | rootNotFound (name : String)
  /-- An operation could not be carried out. -/
  | fault (f : Fault)
  deriving DecidableEq, Repr

/-- The message that reports the error. -/
def RunError.message : RunError → String
  | .configuration path _ => "loading configuration " ++ path
  | .setups path _ => "loading setups from " ++ path
  | .rootNotFound name => "root not found: " ++ name
  | .fault _ => "internal error"

/-- What a command prints, and whether there are errors among the diagnostics. -/
structure Outcome where
  /-- The text to print. -/
  output : String
  /-- Whether there are errors. -/
  hasErrors : Bool
  deriving DecidableEq, Repr, Inhabited

/-- Reads a document from a file. -/
def load {α : Type} (files : Files) (read : String → Except DocumentError α) (path : String) :
    Except LoadCause α :=
  match files path with
  | none => .error .unreadable
  | some text => (read text).mapError .malformed

/-- The settings of a command: those of its document, then its own. -/
def Invocation.settings (files : Files) (i : Invocation) : Except RunError Configuration := do
  let base ← match i.configuration with
    | none => pure .default
    | some path =>
        (load files (Configuration.ofDocument (.ofConfigurationPath path)) path).mapError
          (.configuration path)
  let base := { base with culture := i.culture.getD base.culture }
  return i.hints.foldl (fun c h => c.setHint h.1 h.2) base

/-- The setups of a command. -/
def Invocation.setups (files : Files) (i : Invocation) : Except RunError (List Setup) :=
  match load files (Setup.listOfDocument (.ofPath i.file)) i.file with
  | .ok setups => .ok (setups.map (Setup.inFile i.file))
  | .error cause => .error (.setups i.file cause)

/-- A value on lines of its own. -/
def jsonText (j : Json) : String := j.pretty ++ "\n"

/-- Whether a name is the one asked for, if one is. -/
def isWanted (wanted : Option String) (name : String) : Bool := wanted.all (· == name)

/-- The roots asked for, with their compositions. -/
def wantedRoots (report : Report) (root composition : Option String) :
    List (CompositionReport × RootReport) :=
  (report.compositions.filter fun c => isWanted composition c.name).flatMap fun c =>
    (c.roots.filter fun r => isWanted root r.name).map fun r => (c, r)

/-- The text of a root: its plan, or why there is none. -/
def planText (c : CompositionReport) (r : RootReport) : String :=
  match r.plan with
  | some plan => plan.text ++ "\n"
  | none => c.name ++ "." ++ r.name ++ ": no plan\n" ++ c.diagnosticsText

/-- What the diagnostics are printed as. -/
def checkOutput (format : OutputFormat) (report : Report) : String :=
  match format with
  | .text => report.text
  | .json => jsonText (.list Diagnostic.toJson report.diagnostics)

/-- What plans are printed as. -/
def planOutput (format : OutputFormat) (report : Report) (root composition : Option String) :
    Except RunError String :=
  let found := wantedRoots report root composition
  match root, found with
  | some name, [] => .error (.rootNotFound name)
  | _, _ =>
      match format with
      | .text => .ok (String.join (found.map fun r => planText r.1 r.2))
      | .json => .ok (jsonText (.list Plan.toJson (found.filterMap fun r => r.2.plan)))

/-- What a graph is printed as. -/
def graphOutput (format : OutputFormat) (report : Report) (root : String)
    (composition : Option String) : Except RunError String :=
  match wantedRoots report (some root) composition with
  | [] => .error (.rootNotFound root)
  | (c, r) :: _ =>
      match format with
      | .json => .ok (jsonText r.graph.toJson)
      | .text => do
          let tree ← r.graph.treeText.mapError RunError.fault
          return c.name ++ "." ++ r.name ++ "\n" ++ tree ++ c.diagnosticsText

/-- Carries out a command. -/
def Invocation.run (files : Files) (i : Invocation) : Except RunError Outcome := do
  let settings ← i.settings files
  let setups ← i.setups files
  let report ← (Report.ofSetups settings setups).mapError RunError.fault
  let output ← match i.action with
    | .check => pure (checkOutput i.format report)
    | .plan root composition => planOutput i.format report root composition
    | .graph root composition => graphOutput i.format report root composition
  return ⟨output, report.hasErrors⟩

end CommandLine

end Injector
