import Injector.Proofs.Wiring.Creation

/-!
# What accounts for nodes and edges

The graph of a query with an answer shows what the query retains. The main statements are that the
edges which such a query adds are exactly those of the calls that it retains, each at the position
of its request, and that an edge leads to something else than its request accepts only where a call
is misled by an argument.
-/

namespace Injector.Wiring

variable {resolver : Resolver}

namespace Query

variable {q d : Query}

/-- Whether a state accounts for a query with an answer: it has what the queries that it retains
leave, and its edges are those of the calls that it retains. -/
structure Traced (resolver : Resolver) (q : Query) (s' : State) : Prop where
  /-- What is retained has answers, and the nodes that it leaves stay, but for constructors that are
  noted. -/
  answered : ∀ d, q.Retains resolver d → ∃ n s, d.outcome resolver = .ok (some n, s) ∧
    ∀ k p, (∀ index node, p node → p (chosen index node)) → s.graph.Has k p → s'.graph.Has k p
  /-- Calls that are retained have edges. -/
  connected : ∀ d c n, q.Connects resolver d c n →
    s'.graph.HasEdge (c.link.wire.edge d.nodeNumber n)
  /-- An edge that was added is that of a call that is retained. -/
  traced : ∀ e, s'.graph.HasEdge e → q.state.graph.HasEdge e ∨
    ∃ d c n, q.Connects resolver d c n ∧ e = c.link.wire.edge d.nodeNumber n
  /-- Calls that are retained ask for the requests of the nodes for which they are made. -/
  asked : ∀ d, q.Retains resolver d → ∀ c ∈ d.lastCalls resolver,
    s'.graph.Has d.nodeNumber fun node =>
      resolver.requestAt d.request.pin node c.link.wire.position = some c.query.request
  /-- No number is given twice to what is retained. -/
  distinct : ∀ d d', q.Retains resolver d → q.Retains resolver d' → d.Makes resolver →
    d'.Makes resolver → d.nodeNumber = d'.nodeNumber → d = d'

/-- A query with an answer for which nothing is made accounts for itself. -/
theorem traced_of_lastCalls_nil (hnone : q.lastCalls resolver = []) {n : NodeId} {s' : State}
    (h : q.outcome resolver = .ok (some n, s'))
    (hedges : s'.graph.edges.entries = q.state.graph.edges.entries) : q.Traced resolver s' := by
  have hself : ∀ d, q.Retains resolver d → d = q := fun d hd =>
    (retains_cases hd).resolve_right fun ⟨c, hc, _⟩ => by
      rw [hnone] at hc
      cases hc
  refine ⟨fun d hd => ?_, fun d c n hc => ?_, fun e he => ?_, fun d hd c hc => ?_, ?_⟩
  · obtain rfl := hself d hd
    exact ⟨n, s', h, fun k p _ hk => hk⟩
  · obtain ⟨hd, hmem, -⟩ := hc
    obtain rfl := hself d hd
    rw [hnone] at hmem
    cases hmem
  · exact .inl ((Graph.hasEdge_congr hedges e).mp he)
  · obtain rfl := hself d hd
    rw [hnone] at hc
    cases hc
  · intro d d' hd hd' _ _ _
    rw [hself d hd, hself d' hd']

/-- What is made for the query that created a node stays at its number. -/
theorem Traced.creates {s' : State} (h : q.Traced resolver s') (hq : q.Proper resolver)
    (hd : q.Retains resolver d) {node : Node} (hc : d.Creates resolver node) :
    s'.graph.Has d.nodeNumber (d.Creates resolver) := by
  obtain ⟨n, s, hout, hkept⟩ := h.answered d hd
  obtain ⟨-, hnode⟩ := hc.answer (hq.of_retains hd).1 hout
  exact hkept _ _ (fun index node hnode => .noted index hnode) hnode

/-- A query that makes a value accounts for it if its calls do for theirs. -/
theorem traced_of_make (hq : q.Proper resolver) {m : Making}
    (hm : q.verdict resolver = .ok (.make m)) {n : NodeId} {s' : State}
    (h : q.outcome resolver = .ok (some n, s'))
    (hcalls : ∀ c ∈ q.lastCalls resolver, ∀ n s, c.query.outcome resolver = .ok (some n, s) →
      c.query.Traced resolver s) : q.Traced resolver s' := by
  obtain ⟨rfl, s₀, s₁, hchain, -, hedges, hs₁, hnoted, -, hown, -⟩ := exists_made hq hm h
  refine ⟨fun d hd => ?_, fun d c n hconnects => ?_, fun e he => ?_, fun d hd c hc => ?_,
    fun d d' hd hd' hmakes hmakes' heq => ?_⟩
  · rcases retains_cases hd with rfl | ⟨c, hc, hd⟩
    · exact ⟨d.nodeNumber, s', h, fun k p _ hk => hk⟩
    · obtain ⟨n, s, hout, -, hs, hx, -⟩ := hchain.answered hc
      obtain ⟨n', s₂, hout', hkept⟩ := (hcalls c hc n s hout).answered d hd
      refine ⟨n', s₂, hout', fun k p hp hk => hnoted.has hp ?_⟩
      exact (hkept k p hp hk).of_extends hx.graph hs.graph hs₁.graph
  · obtain ⟨hd, hc, s, hout⟩ := hconnects
    rw [hnoted.hasEdge_iff]
    rcases retains_cases hd with rfl | ⟨c₀, hc₀, hd⟩
    · obtain ⟨n', s₂, hout', -, -, -, hedge⟩ := hchain.answered hc
      cases hout.symm.trans hout'
      exact hedge
    · obtain ⟨n', s₂, hout', -, -, hx, -⟩ := hchain.answered hc₀
      exact ((hcalls c₀ hc₀ n' s₂ hout').connected d c n ⟨hd, hc, s, hout⟩).of_extends hx.graph
  · have hfound := hchain.hasEdge (p := fun e => ∃ d c n, q.Connects resolver d c n ∧
      e = c.link.wire.edge d.nodeNumber n) (fun c hc n s hout => ⟨⟨q, c, n, ⟨.refl, hc, s, hout⟩,
        rfl⟩, fun e he => ((hcalls c hc n s hout).traced e he).imp_right ?_⟩)
      ((hnoted.hasEdge_iff e).mp he)
    · exact hfound.imp_left (Graph.hasEdge_congr hedges e).mp
    · rintro ⟨d, c', n', ⟨hd, hc', hout'⟩, rfl⟩
      exact ⟨d, c', n', ⟨.head ⟨c, hc, rfl⟩ hd, hc', hout'⟩, rfl⟩
  · rcases retains_cases hd with rfl | ⟨c₀, hc₀, hd⟩
    · exact hown c hc
    · obtain ⟨n, s, hout, -, hs, hx, -⟩ := hchain.answered hc₀
      refine hnoted.has_of_ne (nodeNumber_ne hq hc₀ hd) ?_
      exact ((hcalls c₀ hc₀ n s hout).asked d hd c hc).of_extends hx.graph hs.graph hs₁.graph
  · obtain ⟨m, hm⟩ := hmakes
    obtain ⟨m', hm'⟩ := hmakes'
    exact eq_of_nodeNumber_eq hq h hd hd' (.value hm) (.value hm') heq

/-- Only making values adds edges. -/
theorem edges_of_not_makes (hq : q.Admissible resolver) (hnot : ¬ q.Makes resolver)
    {a : Option NodeId} {s' : State} (h : q.outcome resolver = .ok (a, s')) :
    s'.graph.edges = q.state.graph.edges := by
  obtain ⟨touched, heq⟩ := q.reached_eq resolver
  rw [outcome_eq hq] at h
  cases hv : q.verdict resolver with
  | error e =>
    rw [hv] at h
    cases h
  | ok v =>
    rw [hv] at h
    cases v with
    | argument found => obtain ⟨type, block | n⟩ := found <;> cases h <;> rfl
    | make m => exact absurd ⟨m, hv⟩ hnot
    | unresolved =>
      cases h
      rfl
    | linked n =>
      cases h
      rw [heq]
    | loop members path =>
      cases h
      rw [heq, State.looping]
    | recalled issues =>
      cases h
      rw [heq]

/-- Every query with an answer accounts for it. -/
theorem outcome_traced (hq : q.Proper resolver) {n : NodeId} {s' : State}
    (h : q.outcome resolver = .ok (some n, s')) : q.Traced resolver s' := by
  have hadmissible := hq.toAdmissible
  induction q, hadmissible using Admissible.induct generalizing n s' with | step q hadmissible ih
  by_cases hmakes : q.Makes resolver
  · obtain ⟨m, hm⟩ := hmakes
    refine traced_of_make hq hm h fun c hc n s hout => ?_
    obtain ⟨-, hproper, hbelow, -⟩ := hq.of_mem_lastCalls hc
    exact ih _ hbelow hproper hout
  · have hnone : q.lastCalls resolver = [] := List.eq_nil_iff_forall_not_mem.mpr fun c hc =>
      hmakes (hq.of_mem_lastCalls hc).1
    exact traced_of_lastCalls_nil hnone h
      (congrArg Pool.entries (edges_of_not_makes hadmissible hmakes h))

/-- Whether a query is answered by the number of an argument that stands for something else, or for
nothing. -/
def Misled (resolver : Resolver) (q : Query) : Prop :=
  ∃ type n, q.visible? = some ⟨type, .node n⟩ ∧
    ¬ q.state.graph.Has n (resolver.Accepts q.request)

/-- What is there when a query is asked that is retained stays as it is, but for constructors that
are noted. So a property that these leave alone holds of a node that was there then or never. -/
theorem Traced.has_iff {s' : State} (h : q.Traced resolver s') (hq : q.Proper resolver)
    (hd : q.Retains resolver d) {k : NodeId} (hk : k ∈ d.state.graph.nodes.taken)
    {p : Node → Prop} (hp : ∀ index node, p (chosen index node) ↔ p node) :
    s'.graph.Has k p ↔ d.state.graph.Has k p := by
  obtain ⟨hproper, -⟩ := hq.of_retains hd
  obtain ⟨n, s, hout, hkept⟩ := h.answered d hd
  obtain ⟨hx, hs⟩ := outcome_extends hproper hout
  have hstays : ∀ r : Node → Prop, (∀ index node, r (chosen index node) ↔ r node) →
      d.state.graph.Has k r → s'.graph.Has k r := fun r hr hhas =>
    hkept k r (fun index node => (hr index node).mpr)
      (hhas.of_extends hx.graph hproper.consistent.graph hs.graph)
  refine ⟨fun hhas => ?_, hstays p hp⟩
  obtain ⟨old, hold⟩ := Option.isSome_iff_exists.mp (Pool.get?_isSome_iff.mpr hk)
  refine ⟨old, hold, Classical.byContradiction fun hnot => ?_⟩
  obtain ⟨node, hnode, hnot⟩ := hstays (fun node => ¬ p node)
    (fun index node => not_congr (hp index node)) ⟨old, hold, hnot⟩
  exact hnot (hhas.of_get? hnode)

/-- A number noted for an argument that answers a call which is retained is in use when the call is
made, for otherwise there would be no edge to it. -/
theorem Traced.mem_taken_of_visible {s' : State} (h : q.Traced resolver s')
    (hq : q.Proper resolver) {c : Call} {n : NodeId} (hc : q.Connects resolver d c n)
    {type : TypeExpr} (hvisible : c.query.visible? = some ⟨type, .node n⟩) :
    n ∈ c.query.state.graph.nodes.taken := by
  obtain ⟨hd, hmem, s, hout⟩ := hc
  have hproper := (hq.of_retains hd).1
  obtain ⟨⟨m, hm⟩, hcall, -⟩ := hproper.of_mem_lastCalls hmem
  obtain ⟨k, t, hmade, -⟩ := h.answered d hd
  obtain ⟨-, _, _, hmaking⟩ := exists_made hproper hm hmade
  obtain ⟨k', t', hanswer, htaken, -⟩ := hmaking.chain.answered hmem
  rw [outcome_eq hcall.toAdmissible, verdict_eq_argument.mpr hvisible] at hanswer
  cases hanswer
  exact htaken

/-- The answer to a call that is retained stays what the request accepts, unless the call is
misled. -/
theorem Traced.accepts_iff {s' : State} (h : q.Traced resolver s') (hq : q.Proper resolver)
    {c : Call} {n : NodeId} (hc : q.Connects resolver d c n) :
    s'.graph.Has n (resolver.Accepts c.query.request) ↔ ¬ c.query.Misled resolver := by
  obtain ⟨hd, hmem, s, hout⟩ := hc
  have hcall := ((hq.of_retains hd).1.of_mem_lastCalls hmem).2.1
  have hret : q.Retains resolver c.query := hd.tail ⟨c, hmem, rfl⟩
  have hsame : ∀ type, c.query.visible? = some ⟨type, .node n⟩ →
      (s'.graph.Has n (resolver.Accepts c.query.request) ↔
        c.query.state.graph.Has n (resolver.Accepts c.query.request)) := fun type hvisible =>
    h.has_iff hq hret (h.mem_taken_of_visible hq ⟨hd, hmem, s, hout⟩ hvisible)
      fun index node => accepts_chosen _ node index
  constructor
  · rintro hhas ⟨type, k, hvisible, hnot⟩
    obtain rfl : n = k := Finds.answer (.inr ⟨type, hvisible⟩) hcall hout
    exact hnot ((hsame type hvisible).mp hhas)
  · intro hnot
    rcases outcome_accepts hcall hout with ⟨type, hvisible⟩ | hnode
    · rw [hsame type hvisible]
      exact Classical.byContradiction fun hmisled => hnot ⟨type, n, hvisible, hmisled⟩
    · obtain ⟨n', s₂, hout', hkept⟩ := h.answered c.query hret
      cases hout.symm.trans hout'
      exact hkept n _ (fun index node => (accepts_chosen _ node index).mpr) hnode

end Query

end Injector.Wiring
