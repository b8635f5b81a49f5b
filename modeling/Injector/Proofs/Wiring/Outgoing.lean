import Injector.Proofs.Wiring.Trace

/-!
# Which edges leave a node

Edges leave only the value under construction, and this has a number that was not in use when its
query was asked. So the edges that leave what was there stay as they are, also where edges of
constructors that were rejected had the same numbers. The main statements are that, of a query with
an answer, a value that was made on the way has in the end the node and the edges that it had when
it was complete, and that these edges are those of the calls that were made last for the value, one
for each and in the order of the calls.
-/

namespace Injector

namespace Graph

variable {g g' : Graph} {e : Edge} {k : NodeId}

theorem outgoing_congr (h : g'.edges.entries = g.edges.entries) (k : NodeId) :
    g'.outgoing k = g.outgoing k := by
  rw [outgoing, outgoing, h]

/-- An edge that is added is the first that leaves its source. -/
theorem outgoing_addEdge_source (h : g.addEdge e = .ok g') :
    g'.outgoing e.source = (g.edges.nextNumber, e) :: g.outgoing e.source := by
  obtain ⟨-, -, rfl⟩ := addEdge_eq_ok h
  simp [outgoing]

/-- It leaves no other node. -/
theorem outgoing_addEdge_of_ne (h : g.addEdge e = .ok g') (hne : k ≠ e.source) :
    g'.outgoing k = g.outgoing k := by
  obtain ⟨-, -, rfl⟩ := addEdge_eq_ok h
  simp [outgoing, Ne.symm hne]

end Graph

namespace Wiring

variable {resolver : Resolver}

/-- Whether an answer to a query leaves the edges of what was there when the query was asked. -/
def Query.LeavesEdges (resolver : Resolver) (q : Query) : Prop :=
  ∀ n s, q.outcome resolver = .ok (some n, s) → ∀ k ∈ q.state.graph.nodes.taken,
    s.graph.outgoing k = q.state.graph.outgoing k

namespace Chain

variable {context : Context} {node k : NodeId} {cs : List Call} {s s' : State}

/-- The edges of a call stay, but for those of the node under construction. -/
private theorem outgoing_leave {l : Link} {s₁ : State} {n : NodeId} {g : Graph}
    (edge : s₁.graph.addEdge (l.wire.edge node n) = .ok g) (hne : k ≠ node) :
    (l.leave s { s₁ with graph := g }).graph.outgoing k = s₁.graph.outgoing k := by
  rw [Link.leave_graph]
  exact Graph.outgoing_addEdge_of_ne edge hne

/-- A chain changes only the edges that leave the node under construction. -/
theorem outgoing_of_ne (h : Chain resolver context node cs s s')
    (hcalls : ∀ c ∈ cs, c.query.LeavesEdges resolver) (hk : k ∈ s.graph.nodes.taken)
    (hne : k ≠ node) : s'.graph.outgoing k = s.graph.outgoing k := by
  induction h with
  | nil s => rfl
  | @cons l cs s s₁ s' n g answer grows consistent edge rest ih =>
    obtain ⟨hfirst, hrest⟩ := List.forall_mem_cons.mp hcalls
    have hkept := (Link.leave_connected grows consistent edge).1.graph.mem_taken hk
    calc s'.graph.outgoing k
        = (l.leave s { s₁ with graph := g }).graph.outgoing k := ih hrest hkept
      _ = s₁.graph.outgoing k := outgoing_leave edge hne
      _ = (l.query context s).state.graph.outgoing k :=
          hfirst n s₁ answer k (by rwa [Link.query_nodes])
      _ = s.graph.outgoing k := Graph.outgoing_congr (by rw [Link.query_edges]) k

/-- What a call of a chain leaves keeps its edges, but for the node under construction. -/
theorem outgoing_of_answer (h : Chain resolver context node cs s s')
    (hcalls : ∀ c ∈ cs, c.query.LeavesEdges resolver) {c : Call} (hc : c ∈ cs) {n : NodeId}
    {t : State} (hout : c.query.outcome resolver = .ok (some n, t))
    (hk : k ∈ t.graph.nodes.taken) (hne : k ≠ node) :
    s'.graph.outgoing k = t.graph.outgoing k := by
  induction h with
  | nil s => cases hc
  | @cons l cs s s₁ s' m g answer grows consistent edge rest ih =>
    have hrest := (List.forall_mem_cons.mp hcalls).2
    rcases List.mem_cons.mp hc with rfl | hc
    · cases answer.symm.trans hout
      have hkept : k ∈ (l.leave s { t with graph := g }).graph.nodes.taken := by
        rw [Link.leave_graph]
        exact (Graph.extends_addEdge edge).mem_taken hk
      exact (rest.outgoing_of_ne hrest hkept hne).trans (outgoing_leave edge hne)
    · exact ih hrest hc

/-- The node under construction gets one edge for each call of a chain, in their order. -/
theorem outgoing_node (h : Chain resolver context node cs s s')
    (hcalls : ∀ c ∈ cs, c.query.LeavesEdges resolver) (hnode : node ∈ s.graph.nodes.taken) :
    ∃ es, List.Forall₂ (fun c e => ∃ n t, c.query.outcome resolver = .ok (some n, t) ∧
        e = c.link.wire.edge node n) cs es ∧
      (s'.graph.outgoing node).map Prod.snd =
        es.reverse ++ (s.graph.outgoing node).map Prod.snd := by
  induction h with
  | nil s => exact ⟨[], .nil, rfl⟩
  | @cons l cs s s₁ s' n g answer grows consistent edge rest ih =>
    obtain ⟨hfirst, hrest⟩ := List.forall_mem_cons.mp hcalls
    have hkept := (Link.leave_connected grows consistent edge).1.graph.mem_taken hnode
    obtain ⟨es, hes, hall⟩ := ih hrest hkept
    refine ⟨l.wire.edge node n :: es, .cons ⟨n, s₁, answer, rfl⟩ hes, ?_⟩
    have hold : s₁.graph.outgoing node = s.graph.outgoing node :=
      (hfirst n s₁ answer node (by rwa [Link.query_nodes])).trans
        (Graph.outgoing_congr (by rw [Link.query_edges]) node)
    have hadded : g.outgoing node = (s₁.graph.edges.nextNumber, l.wire.edge node n) ::
        s₁.graph.outgoing node := Graph.outgoing_addEdge_source edge
    rw [hall, Link.leave_graph, hadded, hold, List.reverse_cons, List.append_assoc]
    rfl

end Chain

theorem NotedAt.outgoing_eq {node : NodeId} {g g' : Graph} (h : NotedAt node g g') (k : NodeId) :
    g'.outgoing k = g.outgoing k :=
  Graph.outgoing_congr (congrArg Pool.entries h.edges_eq) k

namespace Query

variable {q d : Query}

/-- What was there when a query was asked keeps its edges. -/
theorem leavesEdges (hq : q.Proper resolver) : q.LeavesEdges resolver := by
  have hadmissible := hq.toAdmissible
  induction q, hadmissible using Admissible.induct with | step q hadmissible ih
  intro n s' hout k hk
  by_cases hmakes : q.Makes resolver
  · obtain ⟨m, hm⟩ := hmakes
    obtain ⟨rfl, s₀, s₁, hmade⟩ := exists_made hq hm hout
    have hcalls : ∀ c ∈ q.lastCalls resolver, c.query.LeavesEdges resolver := fun c hc =>
      ih _ (hq.of_mem_lastCalls hc).2.2.1 (hq.of_mem_lastCalls hc).2.1
    have hne : k ≠ q.nodeNumber := fun heq => nodeNumber_not_mem hq (heq ▸ hk)
    have hbegun : k ∈ s₀.graph.nodes.taken := by
      rw [Pool.taken_congr hmade.nodes]
      exact Graph.mem_taken_addNode_iff.mpr (.inr hk)
    calc s'.graph.outgoing k
        = s₁.graph.outgoing k := hmade.noted.outgoing_eq k
      _ = s₀.graph.outgoing k := hmade.chain.outgoing_of_ne hcalls hbegun hne
      _ = q.state.graph.outgoing k := Graph.outgoing_congr hmade.edges k
  · have hedges := edges_of_not_makes hadmissible hmakes hout
    exact Graph.outgoing_congr (congrArg Pool.entries hedges) k

theorem Proper.leavesEdges_of_mem (hq : q.Proper resolver) :
    ∀ c ∈ q.lastCalls resolver, c.query.LeavesEdges resolver :=
  fun _ hc => leavesEdges (hq.of_mem_lastCalls hc).2.1

/-- The edges that leave a value are, when it is complete, those of the calls that were made last
for it, one for each and in their order. -/
theorem Made.outgoing (hq : q.Proper resolver) {m : Making} {s₀ s₁ s' : State}
    (h : q.Made resolver m s₀ s₁ s') :
    ∃ es, List.Forall₂ (fun c e => ∃ n t, c.query.outcome resolver = .ok (some n, t) ∧
        e = c.link.wire.edge q.nodeNumber n) (q.lastCalls resolver) es ∧
      (s'.graph.outgoing q.nodeNumber).map Prod.snd = es.reverse := by
  have hbegun : q.nodeNumber ∈ s₀.graph.nodes.taken := by
    rw [Pool.taken_congr h.nodes]
    exact Graph.mem_taken_addNode _ _
  have hnone : s₀.graph.outgoing q.nodeNumber = [] := by
    rw [Graph.outgoing_congr h.edges]
    refine List.filter_eq_nil_iff.mpr fun e he hsource => ?_
    exact nodeNumber_not_mem hq (eq_of_beq hsource ▸ hq.consistent.graph.source_mem e he)
  obtain ⟨es, hes, hall⟩ := h.chain.outgoing_node hq.leavesEdges_of_mem hbegun
  refine ⟨es, hes, ?_⟩
  rw [h.noted.outgoing_eq, hall, hnone, List.map_nil, List.append_nil]

/-- A value that was made on the way to an answer keeps its node and its edges. -/
theorem stays_of_retains (hq : q.Proper resolver) {n : NodeId} {s' : State}
    (h : q.outcome resolver = .ok (some n, s')) (hd : q.Retains resolver d) {m : Making}
    (hm : d.verdict resolver = .ok (.make m)) :
    ∃ t, d.outcome resolver = .ok (some d.nodeNumber, t) ∧
      (∀ p, t.graph.Has d.nodeNumber p → s'.graph.Has d.nodeNumber p) ∧
      s'.graph.outgoing d.nodeNumber = t.graph.outgoing d.nodeNumber := by
  have hadmissible := hq.toAdmissible
  induction q, hadmissible using Admissible.induct generalizing n s' with
  | step q hadmissible ih
  rcases retains_cases hd with rfl | ⟨c, hc, hbelow⟩
  · obtain ⟨rfl, -⟩ := exists_made hq hm h
    exact ⟨s', h, fun _ => id, rfl⟩
  · obtain ⟨⟨m', hm'⟩, hproper, hask, -⟩ := hq.of_mem_lastCalls hc
    obtain ⟨-, s₀, s₁, hmade⟩ := exists_made hq hm' h
    obtain ⟨n₁, t₁, hout, -, ht₁, hx, -⟩ := hmade.chain.answered hc
    obtain ⟨t, ht, hnode, hedges⟩ := ih _ hask hproper hout hbelow
    have hne : d.nodeNumber ≠ q.nodeNumber := nodeNumber_ne hq hc hbelow
    have hcreates : d.Creates resolver m.content := .value hm
    have htaken : d.nodeNumber ∈ t₁.graph.nodes.taken :=
      (hnode _ (hcreates.answer (hproper.of_retains hbelow).1 ht).2).mem_taken
    refine ⟨t, ht, fun p hp => ?_, ?_⟩
    · exact hmade.noted.has_of_ne hne
        ((hnode p hp).of_extends hx.graph ht₁.graph hmade.consistent.graph)
    · calc s'.graph.outgoing d.nodeNumber
          = s₁.graph.outgoing d.nodeNumber := hmade.noted.outgoing_eq _
        _ = t₁.graph.outgoing d.nodeNumber :=
            hmade.chain.outgoing_of_answer hq.leavesEdges_of_mem hc hout htaken hne
        _ = t.graph.outgoing d.nodeNumber := hedges

end Query

end Wiring

end Injector
