import Injector.Proofs.Plan.Disposal
import Injector.Proofs.Report.Calls
import Injector.Proofs.Report.Roots

/-!
# What the plans of a run dispose of

A plan that is reported is that of a graph that was built to the end and has no loops, so that all
that is disposable in the graph is made by the plan. The main statement is that every plan in the
report of a run has the slots of all disposable nodes of its graph in its order of disposal, each
once, and that of a node before those of all that the node eagerly depends on.
-/

namespace Injector

open Wiring

namespace Wiring

variable {resolver : Resolver} {root : Table.Root} {cycles : CycleLog} {b : RootBuild}

/-- What is disposable in a resolved root is made: arguments of provider calls are not disposed. -/
theorem makes_of_disposable (h : buildRoot resolver root cycles = .ok b)
    (hresolved : b.isResolved = true) {n : NodeId}
    (hn : b.graph.Has n fun node => node.disposable = true) : b.graph.Makes n := by
  obtain ⟨node, hnode, hdisposable⟩ := hn
  refine ⟨node, hnode, fun block index ho => ?_⟩
  obtain ⟨d, -, -, hcreates⟩ := buildRoot_nodes h hresolved hnode
  obtain ⟨type, hvisible, -⟩ := hcreates.visible ho
  rw [hcreates.eq_argumentNode hvisible] at hdisposable
  cases hdisposable

end Wiring

/-- Whether the report of a root has its plan and the graph for which it was derived, in which
nothing is wrong. -/
structure RootReport.Plans (resolver : Resolver) (root : Table.Root) (cycles : CycleLog)
    (b : RootBuild) (r : RootReport) (plan : Plan) : Prop where
  /-- The root was built. -/
  built : buildRoot resolver root cycles = .ok b
  /-- All that the root needs is there. -/
  resolved : b.isResolved = true
  /-- The graph is reported. -/
  graph : r.graph = b.graph
  /-- Nothing was found in the graph. -/
  sound : b.graph.defects resolver.table root = .ok []
  /-- The plan was derived for the graph. -/
  derived : Plan.derive? b.graph root resolver.table = .ok (some plan)

variable {resolver : Resolver} {mergeFailed : Bool} {r : RootReport} {plan : Plan}

namespace RootsProgress

variable {p p' : RootsProgress}

/-- A plan that one root adds is that of its graph. -/
theorem plans_of_add {root : Table.Root} (h : add resolver mergeFailed p root = .ok p')
    (hr : r ∈ p'.roots) (hplan : r.plan = some plan) :
    r ∈ p.roots ∨ ∃ b, r.Plans resolver root p.cycles b plan := by
  obtain ⟨b, hbuilt, h⟩ := bind_eq_ok.mp h
  obtain ⟨defects, hdefects, h⟩ := bind_eq_ok.mp h
  simp only at h
  split at h
  · cases h
    rcases List.mem_append.mp hr with hr | hr
    · exact .inl hr
    · obtain rfl := List.mem_singleton.mp hr
      cases hplan
  · next hgood =>
    obtain ⟨planned, hderived, h⟩ := bind_eq_ok.mp h
    cases h
    rcases List.mem_append.mp hr with hr | hr
    · exact .inl hr
    · obtain rfl := List.mem_singleton.mp hr
      obtain rfl : planned = some plan := hplan
      simp only [Bool.or_eq_true, Bool.not_eq_true', not_or, Bool.not_eq_false,
        List.isEmpty_iff] at hgood
      obtain ⟨⟨-, hresolved⟩, rfl⟩ := hgood
      exact .inr ⟨b, hbuilt, hresolved, rfl, hdefects, hderived⟩

/-- A plan that several roots add is that of one of them. -/
theorem plans_of_foldlM_add {roots : List Table.Root}
    (h : roots.foldlM (add resolver mergeFailed) p = .ok p') (hr : r ∈ p'.roots)
    (hplan : r.plan = some plan) :
    r ∈ p.roots ∨ ∃ root ∈ roots, ∃ cycles b, r.Plans resolver root cycles b plan := by
  induction roots generalizing p with
  | nil =>
    cases h
    exact .inl hr
  | cons root roots ih =>
    rw [List.foldlM_cons] at h
    obtain ⟨p₁, hadd, h⟩ := bind_eq_ok.mp h
    rcases ih h with hr | ⟨root', hroot', hplans⟩
    · refine (plans_of_add hadd hr hplan).imp_right fun ⟨b, hb⟩ => ?_
      exact ⟨root, List.mem_cons_self, p.cycles, b, hb⟩
    · exact .inr ⟨root', List.mem_cons_of_mem _ hroot', hplans⟩

end RootsProgress

/-- A plan in the report of a composition is that of a root of its table. -/
theorem CompositionReport.exists_plans {config : Configuration} {setups : List Setup}
    {name : String} {c : CompositionReport} (h : ofSetups config setups name = .ok c)
    (hr : r ∈ c.roots) (hplan : r.plan = some plan) :
    ∃ resolver root cycles b, r.Plans resolver root cycles b plan := by
  unfold ofSetups at h
  split at h
  · cases h
    cases hr
  · obtain ⟨p, hroots, h⟩ := bind_eq_ok.mp h
    cases h
    rcases RootsProgress.plans_of_foldlM_add hroots hr hplan with hr | ⟨root, -, cycles, b, hplans⟩
    · cases hr
    · exact ⟨_, root, cycles, b, hplans⟩

/-- A plan that was derived for a graph in which nothing is wrong disposes of what is disposable. -/
theorem RootReport.Plans.disposes {root : Table.Root} {cycles : CycleLog} {b : RootBuild}
    (h : r.Plans resolver root cycles b plan) : ∃ l : Plan.Legend, l.Explains r.graph plan ∧
      l.Describes r.graph plan ∧ l.Disposes r.graph plan.disposal := by
  obtain ⟨hconsistent, hknows⟩ := buildRoot_consistent h.built
  rw [h.graph]
  refine Plan.disposes_of_derive? hconsistent hknows (buildRoot_made h.built)
    (acyclic_of_defects_nil h.built h.resolved h.sound)
    (fun n e he => makes_of_dependency h.built h.resolved he) (fun n hn => ⟨?_, ?_⟩) h.derived
  · obtain ⟨node, hnode, -⟩ := hn
    exact reachable_of_get? h.built h.resolved hnode
  · exact makes_of_disposable h.built h.resolved hn

/-- Every plan in the report of a run, read with a legend under which it shows how its root is made,
disposes of each disposable node of the graph of the root once, with the composition or a scope
exactly when the node lives as long, of nothing else, and of a node before all that the node eagerly
depends on. -/
theorem Report.plan_disposes {config : Configuration} {setups : List Setup} {report : Report}
    (h : Report.ofSetups config setups = .ok report) {c : CompositionReport}
    (hc : c ∈ report.compositions) (hr : r ∈ c.roots) (hplan : r.plan = some plan) :
    ∃ l : Plan.Legend, l.Explains r.graph plan ∧ l.Describes r.graph plan ∧
      l.Disposes r.graph plan.disposal := by
  obtain ⟨name, -, hcomposition⟩ := Report.mem_compositions h hc
  obtain ⟨_, _, _, _, hplans⟩ := CompositionReport.exists_plans hcomposition hr hplan
  exact hplans.disposes

/-- A service and the parts that it shares with others, all of which are to be disposed of. -/
def disposableParts : Setup :=
  let service := Setup.sample [("IS", "Sv", [[.named "IStore" [], .named "ILog" []]])] ["IS"]
  let parts := Setup.sample [("IStore", "Store", [[.named "ILog" []]]), ("ILog", "Log", [[]])] []
  { service with
    bindings := service.bindings.map (fun b => { b with disposable := true }) ++
      parts.bindings.map fun b => { b with disposable := true, lifetime := some .singleton } }

/-- The plan of such a service disposes of the parts with the composition, the store before the log
that it needs, and of the service with its owner. -/
theorem Report.disposableParts_disposes :
    ∃ report, Report.ofSetups .default [disposableParts] = .ok report ∧
      ∃ c ∈ report.compositions, ∃ r ∈ c.roots, ∃ plan,
        r.plan = some plan ∧ plan.disposal = ⟨[1, 0], [2]⟩ ∧
        ∃ l : Plan.Legend, l.Explains r.graph plan ∧ l.Describes r.graph plan ∧
          l.Disposes r.graph plan.disposal := by
  have hplanned : ((Report.ofSetups .default [disposableParts]).toOption.any fun report =>
      report.compositions.any fun c => c.roots.any fun r =>
        r.plan.any fun plan => plan.disposal == ⟨[1, 0], [2]⟩) = true := by decide +kernel
  obtain ⟨report, hreport, hplanned⟩ := (Option.any_eq_true _ _).mp hplanned
  have hreport := toOption_eq_some.mp hreport
  obtain ⟨c, hc, hroots⟩ := List.any_eq_true.mp hplanned
  obtain ⟨r, hr, hany⟩ := List.any_eq_true.mp hroots
  obtain ⟨plan, hplan, hdisposal⟩ := (Option.any_eq_true _ _).mp hany
  exact ⟨report, hreport, c, hc, r, hr, plan, hplan, eq_of_beq hdisposal,
    Report.plan_disposes hreport hc hr hplan⟩

end Injector
