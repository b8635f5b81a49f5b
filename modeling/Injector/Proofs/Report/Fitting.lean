import Injector.Proofs.Plan.Operands
import Injector.Proofs.Report.Calls
import Injector.Proofs.Wiring.Fitting

/-!
# Edges and operands of what was resolved

When a root is resolved, its nodes have the edges that belong to what they are made by, and nothing
is left of constructors that were rejected. The main statement is that every node of a resolved root
fits, so that each step of its plan has one operand for each place: for each parameter, for each
injection, the variable itself where there is no edge, or for each part of a shape.
-/

namespace Injector.Wiring

/-- Whether a node of the graph of a root has exactly the edges for which what it is made by has
places, as it was asked for on the way from the root. -/
def FitsAt (resolver : Resolver) (root : Table.Root) (cycles : CycleLog) (g : Graph) (n : NodeId)
    (places : List Place) : Prop :=
  ∃ node q, g.nodes.get? n = some node ∧ (Query.ofRoot root cycles).Retains resolver q ∧
    q.nodeNumber = n ∧ q.request.contract = node.contract ∧
    Fits resolver q.request node (g.dependencies n) places

variable {resolver : Resolver} {root : Table.Root} {cycles : CycleLog} {b : RootBuild}

/-- Every node of a resolved root fits. -/
theorem exists_fitsAt (h : buildRoot resolver root cycles = .ok b)
    (hresolved : b.isResolved = true) {n : NodeId} {node : Node}
    (hn : b.graph.nodes.get? n = some node) :
    ∃ places, FitsAt resolver root cycles b.graph n places := by
  have hroot := Query.ofRoot_proper resolver root cycles
  obtain ⟨d, hd, rfl, hcreates⟩ := buildRoot_nodes h hresolved hn
  by_cases hargument : ∃ block index, node.origin = .argument block index
  · obtain ⟨block, index, ho⟩ := hargument
    obtain ⟨type, hvisible, hcontract⟩ := hcreates.visible ho
    obtain ⟨-, htag, rfl, -⟩ := Query.visible?_eq_some hvisible
    have hnone : b.graph.dependencies d.nodeNumber = [] :=
      List.eq_nil_iff_forall_not_mem.mpr fun e he =>
        (makes_of_dependency h hresolved he).of_get? hn block index ho
    refine ⟨[], node, d, hn, hd, rfl, ?_, .argument ho hnone⟩
    rw [hcontract, ← htag]
  · obtain ⟨m, hm⟩ := hcreates.makes fun block index ho => hargument ⟨block, index, ho⟩
    obtain ⟨_, s, -, hout, hnodes, hedges, -⟩ := buildRoot_resolved h hresolved
    obtain ⟨node', hnode', hcontract, places, hfits⟩ := Query.fits_of_retains hroot hout hd hm
    rw [← hnodes] at hnode'
    cases hn.symm.trans hnode'
    have hsame : b.graph.dependencies d.nodeNumber = s.graph.dependencies d.nodeNumber := by
      rw [Graph.dependencies, Graph.dependencies,
        Graph.outgoing_congr (congrArg Pool.entries hedges)]
    exact ⟨places, node, d, hn, hd, rfl, hcontract.symm, hsame ▸ hfits⟩

/-- Every node of a resolved root has exactly the edges that belong to what it is made by, and each
step of a plan of the root has one operand for each place, in the order of the places. -/
theorem resolved_fits (h : buildRoot resolver root cycles = .ok b)
    (hresolved : b.isResolved = true) :
    (∀ n ∈ b.graph.nodes.taken, ∃ places, FitsAt resolver root cycles b.graph n places) ∧
      ∀ plan, Plan.derive? b.graph root resolver.table = .ok (some plan) →
        ∃ l : Plan.Legend, l.Explains b.graph plan ∧ ∀ r ∈ plan.routines, ∀ st ∈ r.steps,
          ∃ n places, l.slots[st.slot]? = some n ∧
            FitsAt resolver root cycles b.graph n places ∧
            List.Forall₂ (fun p o => o.Fills b.graph l (b.graph.dependencies n) p) places
              st.operands := by
  refine ⟨fun n hn => ?_, fun plan hplan => ?_⟩
  · obtain ⟨node, hnode⟩ := Option.isSome_iff_exists.mp (Pool.get?_isSome_iff.mpr hn)
    exact exists_fitsAt h hresolved hnode
  · obtain ⟨hconsistent, hknows⟩ := buildRoot_consistent h
    obtain ⟨-, -, p, -, -, hexplains, -, hpasses, -⟩ :=
      Plan.exists_planner_of_derive? hconsistent hknows (buildRoot_made h) hplan
    refine ⟨p.legend, hexplains, fun r hr st hst => ?_⟩
    obtain ⟨n, hn⟩ := hpasses r hr st hst
    obtain ⟨node, hnode, -⟩ := hn.made
    obtain ⟨places, hfits⟩ := exists_fitsAt h hresolved hnode
    refine ⟨n, places, hn.slot, hfits, ?_⟩
    obtain ⟨node, q, hnode, -, -, -, hfits⟩ := hfits
    exact hn.fills hnode hfits

/-- A service with a constructor that is rejected after some of its parameters were made, and with
one for which a part is made by a factory; what the factory injects first answers its second
variable. -/
def overridingFactory : Setup :=
  let base := Setup.sample [("IS", "Sv", [[.named "IA" [], .named "Func" [.named "IB" []],
      .named "IMissing" []], [.named "IT" [], .named "Func" [.named "IB" []]]]),
    ("IA", "A", [[]]), ("IB", "B", [[]])] ["IS"]
  { base with bindings := base.bindings ++
      [{ contracts := [⟨.named "IT" [], []⟩], lifetime := none
         recipe := .factory "make" [.inject "first" (some (.named "IB" [])) none .unknown,
           .override "first" none .unknown, .inject "second" (some (.named "IB" [])) none
             .unknown] false
         scope := none, disposable := false, location := .unknown }] }

/-- The service has an edge for each parameter of its second constructor, and the step of the
factory has the variable itself in the second place. -/
theorem resolved_fits_overridingFactory :
    ∃ b plan, buildRoot (.ofSetup overridingFactory) overridingFactory.firstRoot .empty = .ok b ∧
      b.isResolved = true ∧ Plan.derive? b.graph overridingFactory.firstRoot
        (Resolver.ofSetup overridingFactory).table = .ok (some plan) ∧
      (∃ places, FitsAt (.ofSetup overridingFactory) overridingFactory.firstRoot .empty b.graph 0
        places) ∧
      ∃ l : Plan.Legend, l.Explains b.graph plan ∧
        ∃ (st : Plan.Step) (n : NodeId) (places : List Place),
        st.operands = [.slot 0, .inline "second"] ∧ l.slots[st.slot]? = some n ∧
        FitsAt (.ofSetup overridingFactory) overridingFactory.firstRoot .empty b.graph n places ∧
        List.Forall₂ (fun p o => o.Fills b.graph l (b.graph.dependencies n) p) places
          st.operands := by
  have hbuilt : ((buildRoot (.ofSetup overridingFactory) overridingFactory.firstRoot
      .empty).toOption.any fun b => b.isResolved && decide (0 ∈ b.graph.nodes.taken) &&
      ((Plan.derive? b.graph overridingFactory.firstRoot
        (Resolver.ofSetup overridingFactory).table).toOption.any fun p => p.any fun plan =>
          plan.routines.any fun r => r.steps.any fun st =>
            st.operands == [.slot 0, .inline "second"])) = true := by decide +kernel
  obtain ⟨b, hb, hfacts⟩ := (Option.any_eq_true _ _).mp hbuilt
  have hb := toOption_eq_some.mp hb
  simp only [Bool.and_eq_true, decide_eq_true_eq] at hfacts
  obtain ⟨⟨hresolved, hzero⟩, hplanned⟩ := hfacts
  obtain ⟨planned, hderived, hsome⟩ := (Option.any_eq_true _ _).mp hplanned
  obtain ⟨plan, rfl, hroutines⟩ := (Option.any_eq_true _ _).mp hsome
  obtain ⟨r, hr, hsteps⟩ := List.any_eq_true.mp hroutines
  obtain ⟨st, hst, hoperands⟩ := List.any_eq_true.mp hsteps
  have hplan := toOption_eq_some.mp hderived
  obtain ⟨hnodes, hplans⟩ := resolved_fits hb hresolved
  obtain ⟨l, hl, hfills⟩ := hplans plan hplan
  obtain ⟨n, places, hslot, hfits, hall⟩ := hfills r hr st hst
  exact ⟨b, plan, hb, hresolved, hplan, hnodes 0 hzero, l, hl, st, n, places,
    beq_iff_eq.mp hoperands, hslot, hfits, hall⟩

end Injector.Wiring
