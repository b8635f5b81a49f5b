import Injector.Proofs.Graph.Defects
import Injector.Proofs.Plan.Executable
import Injector.Proofs.Wiring.Root
import Injector.Report.Basic

/-!
# Roots that are processed to the end

Once a root is built, nothing can fail: its graph is examined, planned and printed. Building alone
can fail, when the number of an argument of a provider call outlives its node. The main statement is
that a root is processed to the end exactly when no query on the way from it meets such a number.
-/

namespace Injector

open Wiring

/-- A setup whose bindings say by which constructors a contract is made, and whose roots ask for
contracts. -/
def Setup.sample (bindings : List (String × String × List (List TypeExpr))) (roots : List String) :
    Setup where
  name := "Composition"
  kind := .exposed
  bindings := bindings.map fun b =>
    { contracts := [⟨.named b.1 [], []⟩]
      lifetime := none
      recipe := .construct (.named b.2.1 []) none (b.2.2.map fun types =>
        ⟨types.zipIdx.map fun p => ⟨"p" ++ toString p.2, p.1, none, .unknown⟩, none⟩)
      scope := none
      disposable := false
      location := .unknown }
  roots := roots.map fun name => ⟨name, .named name [], none, .property, .unknown⟩
  dependsOn := []
  defaultLifetime := none
  hints := .empty
  markers := []
  members := []
  location := .unknown

/-- The resolver of a composition that is made by one setup, without further shapes. -/
def Resolver.ofSetup (setup : Setup) : Resolver :=
  ⟨.ofSetups setup.name .empty [setup], .ofRegistrations []⟩

/-- The root that a setup declares first. -/
def Setup.firstRoot (setup : Setup) : Table.Root :=
  (setup.roots.head?.map (Table.rootOf setup)).getD default

variable {resolver : Resolver} {root : Table.Root} {cycles : CycleLog}

/-- The graph that was built of a root has no loop where nothing is wrong with it. -/
theorem acyclic_of_defects_nil {b : RootBuild} (h : buildRoot resolver root cycles = .ok b)
    (hresolved : b.isResolved = true) (hdefects : b.graph.defects resolver.table root = .ok []) :
    b.graph.Acyclic := by
  obtain ⟨start, hstart⟩ := Option.isSome_iff_exists.mp hresolved
  obtain ⟨hconsistent, -⟩ := buildRoot_consistent h
  exact hconsistent.acyclic (Graph.eagerLoop?_of_defects_nil hstart hdefects)

/-- A root is built, examined, planned and printed exactly when no query on the way from it is
answered by the number of an argument whose node was taken back. -/
theorem root_completes_iff (resolver : Resolver) (root : Table.Root) (cycles : CycleLog) :
    (∃ b, buildRoot resolver root cycles = .ok b ∧
      (∃ issues, b.graph.defects resolver.table root = .ok issues) ∧
      (∃ plan, Plan.derive? b.graph root resolver.table = .ok plan) ∧
      ∃ text, b.graph.treeText = .ok text) ↔
      ∀ d, Query.Reaches resolver (.ofRoot root cycles) d → ¬ d.Stale := by
  rw [← buildRoot_ok_iff]
  constructor
  · rintro ⟨b, h, -⟩
    exact ⟨b, h⟩
  · rintro ⟨b, h⟩
    obtain ⟨hconsistent, hknows⟩ := buildRoot_consistent h
    obtain ⟨plan, hplan, -⟩ := Plan.derive?_ok hconsistent hknows (buildRoot_made h) root
    exact ⟨b, h, hconsistent.defects_ok hknows root, ⟨plan, hplan⟩, hconsistent.treeText_ok⟩

/-- A service whose parts take an argument of the provider call; the constructor tried first needs
something else that nothing answers. -/
def rejectedArgument : Setup :=
  .sample [("IS", "Sv", [[.named "Func" [.named "int" [], .named "IT" []]]]),
    ("IT", "T", [[.named "int" [], .named "IMissing" []], [.named "int" []]])] ["IS"]

/-- The second constructor is connected to the node that the first one made for the argument, which
was taken back with it. -/
theorem rejectedArgument_fails :
    (Table.merge [rejectedArgument] "Composition" .empty .empty).2 =
        some (Resolver.ofSetup rejectedArgument).table ∧
      rejectedArgument.firstRoot ∈ (Resolver.ofSetup rejectedArgument).table.roots ∧
      ∀ b, buildRoot (.ofSetup rejectedArgument) rejectedArgument.firstRoot .empty ≠ .ok b := by
  refine ⟨by decide +kernel, by decide +kernel, fun b h => ?_⟩
  have hnone : (buildRoot (.ofSetup rejectedArgument) rejectedArgument.firstRoot
    .empty).toOption.isNone = true := by decide +kernel
  rw [h] at hnone
  cases hnone

end Injector
