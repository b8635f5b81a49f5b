import Injector.Proofs.Report.Completion
import Injector.Proofs.Wiring.Trace

/-!
# What edges lead to

An edge of the graph of a root leaves a value at a position, and the value has a request for this
position. The main statement is that every edge leads to what this request accepts exactly when no
query that is retained on the way from the root is misled by the number of an argument.
-/

namespace Injector.Wiring

/-- Whether every edge of a graph of a root leads to what the request of its position accepts: the
request that its source has there, as it was asked for on the way from the root. -/
def Wired (resolver : Resolver) (root : Table.Root) (cycles : CycleLog) (g : Graph) : Prop :=
  ∀ e, g.HasEdge e → ∃ q node r, (Query.ofRoot root cycles).Retains resolver q ∧
    q.Makes resolver ∧ q.nodeNumber = e.source ∧ g.nodes.get? e.source = some node ∧
    resolver.requestAt q.request.pin node e.position = some r ∧
    g.Has e.target (resolver.Accepts r)

variable {resolver : Resolver} {root : Table.Root} {cycles : CycleLog}

/-- What was built of a root accounts for its query. -/
theorem buildRoot_traced {b : RootBuild} (h : buildRoot resolver root cycles = .ok b)
    (hresolved : b.isResolved = true) :
    ∃ s, (Query.ofRoot root cycles).Traced resolver s ∧ b.graph.nodes = s.graph.nodes ∧
      b.graph.edges = s.graph.edges := by
  obtain ⟨_, s, -, hout, hnodes, hedges, -⟩ := buildRoot_resolved h hresolved
  exact ⟨s, Query.outcome_traced (Query.ofRoot_proper resolver root cycles) hout, hnodes, hedges⟩

/-- A service whose parts take an argument of the provider call; the constructor tried first uses
the argument and is rejected, and the second one needs something else before it uses the
argument. -/
def reusedArgument : Setup :=
  .sample [("IS", "Sv", [[.named "Func" [.named "int" [], .named "IT" []]]]),
    ("IT", "T", [[.named "int" [], .named "IMissing" []], [.named "ILog" [], .named "int" []]]),
    ("ILog", "Log", [[]])] ["IS"]

/-- The number of the argument is given to what the second constructor needs first, which then
stands for the argument too. -/
theorem reusedArgument_edge :
    ∃ b, buildRoot (.ofSetup reusedArgument) reusedArgument.firstRoot .empty = .ok b ∧
      b.isResolved = true ∧
      ¬ Wired (.ofSetup reusedArgument) reusedArgument.firstRoot .empty b.graph := by
  have hbuilt : ((buildRoot (.ofSetup reusedArgument) reusedArgument.firstRoot
      .empty).toOption.any fun b => b.isResolved && b.graph.edges.entries.any fun e =>
        (b.graph.nodes.get? e.2.source).any fun node => node.origin.isBinding &&
          ((Resolver.ofSetup reusedArgument).requestAt none node e.2.position).any fun r =>
            !decide (b.graph.Has e.2.target ((Resolver.ofSetup reusedArgument).Accepts r))) =
      true := by decide +kernel
  obtain ⟨b, hb, hfacts⟩ := any_toOption.mp hbuilt
  obtain ⟨hresolved, hedge⟩ := Bool.and_eq_true_iff.mp hfacts
  obtain ⟨⟨k, e⟩, he, hsource⟩ := List.any_eq_true.mp hedge
  obtain ⟨node, hnode, horigin⟩ := (Option.any_eq_true _ _).mp hsource
  obtain ⟨hbinding, hrequest⟩ := Bool.and_eq_true_iff.mp horigin
  obtain ⟨r, hr, hnot⟩ := (Option.any_eq_true _ _).mp hrequest
  refine ⟨b, hb, hresolved, fun hwired => ?_⟩
  obtain ⟨q, node', r', -, -, -, hnode', hr', htarget⟩ := hwired e ⟨k, he⟩
  cases hnode.symm.trans hnode'
  rw [Resolver.requestAt_of_isBinding _ hbinding] at hr'
  cases hr.symm.trans hr'
  simp [htarget] at hnot

/-- Every edge of the graph of a resolved root leads to what the request of its position accepts
exactly when no query that is retained on the way is misled. -/
theorem wired_iff {b : RootBuild} (h : buildRoot resolver root cycles = .ok b)
    (hresolved : b.isResolved = true) :
    Wired resolver root cycles b.graph ↔
      ∀ q, (Query.ofRoot root cycles).Retains resolver q → ¬ q.Misled resolver := by
  obtain ⟨s, htraced, hnodes, hedges⟩ := buildRoot_traced h hresolved
  have hroot := Query.ofRoot_proper resolver root cycles
  have hhas : ∀ n p, b.graph.Has n p ↔ s.graph.Has n p := by
    intro n p
    rw [Graph.Has, Graph.Has, hnodes]
  have hedge : ∀ e, b.graph.HasEdge e ↔ s.graph.HasEdge e :=
    Graph.hasEdge_congr (congrArg Pool.entries hedges)
  constructor
  · intro hwired q hq hmisled
    rcases hq.cases_tail with rfl | ⟨d, hd, c, hc, rfl⟩
    · obtain ⟨type, n, hvisible, -⟩ := hmisled
      cases (Query.ofRoot_visible root cycles).symm.trans hvisible
    · obtain ⟨hmakes, -⟩ := (hroot.of_retains hd).1.of_mem_lastCalls hc
      obtain ⟨n, t, hout, -⟩ := htraced.answered c.query hq
      have hconnects : (Query.ofRoot root cycles).Connects resolver d c n := ⟨hd, hc, t, hout⟩
      obtain ⟨q', node, r, hq', hmakes', hsource, hnode, hrequest, htarget⟩ :=
        hwired _ ((hedge _).mpr (htraced.connected d c n hconnects))
      obtain rfl := htraced.distinct q' d hq' hd hmakes' hmakes hsource
      obtain ⟨node', hnode', hasked⟩ := htraced.asked q' hd c hc
      rw [hnodes] at hnode
      cases hnode.symm.trans hnode'
      cases hrequest.symm.trans hasked
      exact (htraced.accepts_iff hroot hconnects).mp ((hhas _ _).mp htarget) hmisled
  · intro hnone e he
    rcases htraced.traced e ((hedge e).mp he) with ⟨k, hk⟩ | ⟨d, c, n, hconnects, rfl⟩
    · cases hk
    · obtain ⟨hd, hc, t, hout⟩ := hconnects
      obtain ⟨hmakes, -⟩ := (hroot.of_retains hd).1.of_mem_lastCalls hc
      obtain ⟨node, hnode, hasked⟩ := htraced.asked d hd c hc
      refine ⟨d, node, c.query.request, hd, hmakes, rfl, hnodes ▸ hnode, hasked, ?_⟩
      exact (hhas _ _).mpr ((htraced.accepts_iff hroot ⟨hd, hc, t, hout⟩).mpr
        (hnone _ (hd.tail ⟨c, hc, rfl⟩)))

/-- A query on the way from such a service is misled. -/
theorem wired_iff_reusedArgument :
    ∃ b, buildRoot (.ofSetup reusedArgument) reusedArgument.firstRoot .empty = .ok b ∧
      b.isResolved = true ∧
      ∃ q, (Query.ofRoot reusedArgument.firstRoot .empty).Retains (.ofSetup reusedArgument) q ∧
        q.Misled (.ofSetup reusedArgument) := by
  obtain ⟨b, hb, hresolved, hnot⟩ := reusedArgument_edge
  refine ⟨b, hb, hresolved, Classical.byContradiction fun hnone => hnot ?_⟩
  exact (wired_iff hb hresolved).mpr fun q hq hmisled => hnone ⟨q, hq, hmisled⟩

/-- An edge of a resolved root can lead to what the request of its position does not accept. -/
theorem reusedArgument_not_wired :
    ¬ ∀ b, buildRoot (.ofSetup reusedArgument) reusedArgument.firstRoot .empty = .ok b →
      b.isResolved = true →
      Wired (.ofSetup reusedArgument) reusedArgument.firstRoot .empty b.graph := by
  intro hall
  obtain ⟨b, hb, hresolved, hnot⟩ := reusedArgument_edge
  exact hnot (hall b hb hresolved)

end Injector.Wiring
