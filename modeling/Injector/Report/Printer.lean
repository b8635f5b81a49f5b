import Injector.Report.Basic

/-!
# Reports as text

A composition is shown by one indented line for each diagnostic and a line that counts them.
-/

namespace Injector

/-- The lines of the diagnostics of a composition. -/
def CompositionReport.diagnosticsText (c : CompositionReport) : String :=
  String.join (c.diagnostics.map fun d => "  " ++ d.text ++ "\n")

/-- The line that counts what is in a composition, without its end. -/
def CompositionReport.summary (c : CompositionReport) : String :=
  c.name ++ ": " ++ toString (c.countOf .error) ++ " error(s), " ++
    toString (c.countOf .warning) ++ " warning(s), " ++ toString c.roots.length ++ " root(s)"

/-- The text of a report. -/
def Report.text (r : Report) : String :=
  if r.compositions.isEmpty then "No compositions found.\n"
  else String.join (r.compositions.map fun c => c.diagnosticsText ++ c.summary ++ "\n")

end Injector
