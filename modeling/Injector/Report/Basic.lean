import Injector.Configuration
import Injector.Defect
import Injector.Plan.Derivation
import Injector.Table.Merge
import Injector.Wiring.Basic

/-!
# Reports of a run

Every composition is merged, and each of its roots is built, examined and planned. A root without
errors has a plan, unless the merge of its composition found errors; bindings that no root reaches
are reported last.
-/

namespace Injector

/-- What became of a root. -/
structure RootReport where
  /-- What diagnostics call the root. -/
  name : String
  /-- The graph, as far as it was built. -/
  graph : Graph
  /-- How the root is made; there is no plan where there are errors. -/
  plan : Option Plan
  deriving DecidableEq, Repr, Inhabited

/-- What became of a composition. -/
structure CompositionReport where
  /-- The composition. -/
  name : String
  /-- The diagnostics shown, in the order of discovery. -/
  diagnostics : List Diagnostic
  /-- The roots in the order of declaration; none when there is no table. -/
  roots : List RootReport
  deriving DecidableEq, Repr, Inhabited

/-- What became of the compositions of a run. -/
structure Report where
  /-- The compositions in the order of their first parts. -/
  compositions : List CompositionReport
  deriving DecidableEq, Repr, Inhabited

namespace CompositionReport

/-- Whether a diagnostic is shown as an error. -/
def hasErrors (c : CompositionReport) : Bool := c.diagnostics.any Diagnostic.isError

/-- The first root of a name. -/
def root? (c : CompositionReport) (name : String) : Option RootReport :=
  c.roots.find? fun r => r.name == name

/-- The plan of the first root of a name. -/
def plan? (c : CompositionReport) (name : String) : Option Plan :=
  (c.root? name).bind RootReport.plan

/-- The number of diagnostics shown with a severity. -/
def countOf (c : CompositionReport) (severity : Severity) : Nat :=
  (c.diagnostics.filter fun d => d.severity == severity).length

end CompositionReport

namespace Report

/-- Whether a composition has errors. -/
def hasErrors (r : Report) : Bool := r.compositions.any CompositionReport.hasErrors

/-- The first composition of a name. -/
def composition? (r : Report) (name : String) : Option CompositionReport :=
  r.compositions.find? fun c => c.name == name

/-- The diagnostics of all compositions. -/
def diagnostics (r : Report) : List Diagnostic :=
  r.compositions.flatMap CompositionReport.diagnostics

end Report

/-- What was found for the roots of a composition so far. -/
structure RootsProgress where
  /-- The issues. -/
  sink : Sink
  /-- The loops reported. -/
  cycles : CycleLog
  /-- The bindings reached. -/
  touched : List BindingId
  /-- The roots. -/
  roots : List RootReport
  deriving Repr, Inhabited

namespace RootsProgress

/-- Builds, examines and plans one root. -/
def add (resolver : Resolver) (mergeFailed : Bool) (p : RootsProgress) (root : Table.Root) :
    Except Fault RootsProgress := do
  let b ← Wiring.buildRoot resolver root p.cycles
  let defects ← b.graph.defects resolver.table root
  let failed := mergeFailed || !b.isResolved || !defects.isEmpty
  let plan ← if failed then pure none else Plan.derive? b.graph root resolver.table
  return {
    sink := (p.sink.reportAll b.issues).reportAll defects
    cycles := b.cycles
    touched := p.touched ++ b.touched
    roots := p.roots ++ [⟨root.describe, b.graph, plan⟩] }

/-- Builds, examines and plans the roots of a table one after the other. -/
def ofTable (resolver : Resolver) (sink : Sink) : Except Fault RootsProgress :=
  let mergeFailed := sink.hasErrors resolver.table.hints
  resolver.table.roots.foldlM (add resolver mergeFailed) ⟨sink, .empty, [], []⟩

end RootsProgress

/-- The issue of a binding that no root reaches: a replaced binding is reported unless it replaces
others itself, and an active one only where there are roots. -/
def Table.unusedIssue? (t : Table) (id : BindingId) (r : Registration) : Option Issue :=
  if t.isShadowed id then
    if t.isOverriding id then none else some ⟨r.location, .bindingNotUsed r.describe⟩
  else if t.roots.isEmpty then none
  else some ⟨r.location, .metadataDefect r.describe⟩

/-- The issues of bindings that no root reaches. -/
def Table.unusedBindings (t : Table) (touched : List BindingId) : List Issue :=
  t.bindings.zipIdx.filterMap fun b =>
    if b.2 ∈ touched then none else t.unusedIssue? b.2 b.1

/-- The language of messages under hints. -/
def Configuration.cultureUnder (c : Configuration) (hints : Hints) : Culture :=
  hints.culture.getD c.culture

/-- The report of one composition. -/
def CompositionReport.ofSetups (config : Configuration) (setups : List Setup) (name : String) :
    Except Fault CompositionReport := do
  match Table.merge setups name config.hints .empty with
  | (sink, none) =>
      return ⟨name, sink.finish config.hints (config.cultureUnder config.hints), []⟩
  | (sink, some table) =>
      let p ← RootsProgress.ofTable ⟨table, .ofRegistrations config.shapes⟩ sink
      let sink := p.sink.reportAll (table.unusedBindings p.touched)
      return ⟨name, sink.finish table.hints (config.cultureUnder table.hints), p.roots⟩

/-- The report of all compositions of some setups. -/
def Report.ofSetups (config : Configuration) (setups : List Setup) : Except Fault Report :=
  return ⟨← (Setup.compositions setups).mapM (CompositionReport.ofSetups config setups)⟩

end Injector
