import Injector.Proofs.Wiring.Root

/-!
# Chains of answered calls

Jobs that all succeed are links, and their calls make a chain: each has an answer, to which the node
under construction is connected before the next call is made. The main statement is that work
succeeds by the chain of its last attempt, begun with the edges that were there before.
-/

namespace Injector.Wiring

variable {resolver : Resolver}

@[simp] theorem Link.query_nodes (l : Link) (context : Context) (s : State) :
    (l.query context s).state.graph.nodes = s.graph.nodes := by
  unfold Link.query
  cases l.provides <;> rfl

@[simp] theorem Link.query_edges (l : Link) (context : Context) (s : State) :
    (l.query context s).state.graph.edges = s.graph.edges := by
  unfold Link.query
  cases l.provides <;> rfl

@[simp] theorem Link.leave_graph (l : Link) (outer s : State) :
    (l.leave outer s).graph = s.graph := by
  unfold Link.leave
  cases l.provides <;> rfl

/-- What is there when a link is made is there when its query is asked. -/
theorem Link.precedes_query (l : Link) (context : Context) (s : State) :
    s.Precedes (l.query context s).state := by
  unfold Link.query
  cases l.provides with
  | none => exact .refl s
  | some args => exact s.precedes_opened args

/-- Calls that are made one after the other, each of which connects a node to its answer. -/
inductive Chain (resolver : Resolver) (context : Context) (node : NodeId) :
    List Call → State → State → Prop
  /-- No call is made. -/
  | nil (s : State) : Chain resolver context node [] s s
  /-- The first call is answered, and the node connected to the answer. -/
  | cons {l : Link} {cs : List Call} {s s₁ s' : State} {n : NodeId} {g : Graph}
      (answer : (l.query context s).outcome resolver = .ok (some n, s₁))
      (grows : (l.query context s).state.Extends s₁) (consistent : s₁.Consistent resolver)
      (edge : s₁.graph.addEdge (l.wire.edge node n) = .ok g)
      (rest : Chain resolver context node cs (l.leave s { s₁ with graph := g }) s') :
      Chain resolver context node (⟨l, l.query context s⟩ :: cs) s s'

section Work

variable {context : Context} {node : NodeId}

/-- Jobs that all succeed are links, whose calls make a chain. -/
theorem chain_of_performAll {jobs : List Job}
    (hgrows : Grows resolver (following resolver) context jobs) {s s' : State}
    (hs : s.Consistent resolver) (hp : context.Placed resolver s.graph)
    (h : performAll (following resolver) context node jobs s = .ok (true, s')) :
    Chain resolver context node (calls (following resolver) context node jobs s) s s' := by
  induction jobs generalizing s with
  | nil =>
    cases h
    exact .nil _
  | cons job jobs ih =>
    obtain ⟨b₁, s₁, b₂, hperform, hrest, hboth⟩ := performAll_cons_eq_ok h
    obtain ⟨rfl, rfl⟩ := Bool.and_eq_true_iff.mp hboth.symm
    cases job with
    | complain issue =>
      rw [perform_complain] at hperform
      cases hperform
    | link l =>
      rw [calls_cons_of_ok hperform]
      rcases perform_link_eq_ok hperform with ⟨s₃, -, hb, -⟩ | ⟨n, s₃, g, ha, hg, -, rfl⟩
      · cases hb
      · obtain ⟨hx, hc⟩ := hgrows l s List.mem_cons_self hs hp (some n) s₃ ha
        obtain ⟨hx', hc'⟩ := Link.leave_connected hx hc hg
        exact .cons ha hx hc hg (ih hgrows.of_cons.2 hc'
          (hp.of_extends hx'.graph hs.graph hc'.graph) hrest)

namespace Chain

variable {cs : List Call} {s s' : State}

theorem grows (h : Chain resolver context node cs s s') (hs : s.Consistent resolver) :
    s.Precedes s' ∧ s'.Consistent resolver := by
  induction h with
  | nil s => exact ⟨.refl _, hs⟩
  | cons answer grows consistent edge rest ih =>
    obtain ⟨hx, hc⟩ := Link.leave_connected grows consistent edge
    obtain ⟨hx', hc'⟩ := ih hc
    exact ⟨hx.precedes.trans hx', hc'⟩

/-- What a first call leaves is there when the others are made. -/
private theorem precedes_leave {l : Link} {s s₁ : State} {e : Edge} {g : Graph}
    (edge : s₁.graph.addEdge e = .ok g) : s₁.Precedes (l.leave s { s₁ with graph := g }) := by
  have hx := Graph.extends_addEdge edge
  obtain ⟨-, -, rfl⟩ := Graph.addEdge_eq_ok edge
  unfold Link.leave
  cases l.provides <;> exact ⟨hx, Nat.le_refl _, List.suffix_refl _⟩

/-- Every call has an answer, to which the node stays connected. -/
theorem answered (h : Chain resolver context node cs s s') {c : Call} (hc : c ∈ cs) :
    ∃ n s₁, c.query.outcome resolver = .ok (some n, s₁) ∧ n ∈ s₁.graph.nodes.taken ∧
      s₁.Consistent resolver ∧ s₁.Precedes s' ∧
      s'.graph.HasEdge (c.link.wire.edge node n) := by
  induction h with
  | nil s => cases hc
  | @cons l cs s s₁ s' n g answer grows consistent edge rest ih =>
    rcases List.mem_cons.mp hc with rfl | hc
    · have hx := (rest.grows (Link.leave_connected grows consistent edge).2).1
      refine ⟨n, s₁, answer, (Graph.addEdge_eq_ok edge).2.1, consistent,
        (precedes_leave edge).trans hx, ?_⟩
      have hgraph := hx.graph
      rw [Link.leave_graph] at hgraph
      exact ((Graph.hasEdge_addEdge edge _).mpr (.inr rfl)).of_extends hgraph
    · exact ih hc

/-- The edges of a chain are those that were there, those that its calls add, and those to their
answers. -/
theorem hasEdge (h : Chain resolver context node cs s s') {p : Edge → Prop}
    (hadd : ∀ c ∈ cs, ∀ n s₁, c.query.outcome resolver = .ok (some n, s₁) →
      p (c.link.wire.edge node n) ∧
        ∀ e, s₁.graph.HasEdge e → c.query.state.graph.HasEdge e ∨ p e)
    {e : Edge} (he : s'.graph.HasEdge e) : s.graph.HasEdge e ∨ p e := by
  induction h with
  | nil s => exact .inl he
  | @cons l cs s s₁ s' n g answer grows consistent edge rest ih =>
    obtain ⟨hfirst, hrest⟩ := List.forall_mem_cons.mp hadd
    obtain ⟨hedge, hnew⟩ := hfirst n s₁ answer
    rcases ih hrest he with he | he
    · rw [Link.leave_graph, Graph.hasEdge_addEdge edge] at he
      rcases he with he | rfl
      · refine (hnew e he).imp_left fun hold => ?_
        exact (Graph.hasEdge_congr (by rw [Link.query_edges]) e).mp hold
      · exact .inr hedge
    · exact .inr he

/-- The nodes of a chain are those that were there and those that its calls add. -/
theorem mem_taken_cases (h : Chain resolver context node cs s s') {p : NodeId → Prop}
    (hadd : ∀ c ∈ cs, ∀ n s₁, c.query.outcome resolver = .ok (some n, s₁) →
      ∀ k ∈ s₁.graph.nodes.taken, k ∈ c.query.state.graph.nodes.taken ∨ p k)
    {k : NodeId} (hk : k ∈ s'.graph.nodes.taken) : k ∈ s.graph.nodes.taken ∨ p k := by
  induction h with
  | nil s => exact .inl hk
  | @cons l cs s s₁ s' n g answer grows consistent edge rest ih =>
    obtain ⟨hfirst, hrest⟩ := List.forall_mem_cons.mp hadd
    rcases ih hrest hk with hk | hk
    · have hnodes : g.nodes = s₁.graph.nodes := by
        obtain ⟨-, -, rfl⟩ := Graph.addEdge_eq_ok edge
        rfl
      rw [Link.leave_graph, hnodes] at hk
      exact (hfirst n s₁ answer k hk).imp_left fun hold => by rwa [Link.query_nodes] at hold
    · exact .inr hk

/-- What was there first is there when a call is made. -/
theorem precedes (h : Chain resolver context node cs s s') {c : Call} (hc : c ∈ cs) :
    s.Precedes c.query.state := by
  induction h with
  | nil s => cases hc
  | @cons l cs s s₁ s' n g answer grows consistent edge rest ih =>
    rcases List.mem_cons.mp hc with rfl | hc
    · exact l.precedes_query context s
    · exact (Link.leave_connected grows consistent edge).1.precedes.trans (ih hc)

/-- What a call leaves is there when a later one is made. -/
theorem pairwise (h : Chain resolver context node cs s s') :
    cs.Pairwise fun c c' => ∀ n s₁, c.query.outcome resolver = .ok (some n, s₁) →
      s₁.Precedes c'.query.state := by
  induction h with
  | nil s => exact .nil
  | cons answer grows consistent edge rest ih =>
    refine .cons (fun c' hc' n s₁ hout => ?_) ih
    cases answer.symm.trans hout
    exact (precedes_leave edge).trans (rest.precedes hc')

/-- Of two calls, what one leaves is there when the other is made. -/
theorem ordered (h : Chain resolver context node cs s s') {c c' : Call} (hc : c ∈ cs)
    (hc' : c' ∈ cs) (hne : c ≠ c') :
    (∀ n s₁, c.query.outcome resolver = .ok (some n, s₁) → s₁.Precedes c'.query.state) ∨
      ∀ n s₁, c'.query.outcome resolver = .ok (some n, s₁) → s₁.Precedes c.query.state := by
  have hpairwise := h.pairwise
  clear h
  induction cs with
  | nil => cases hc
  | cons first rest ih =>
    obtain ⟨hfirst, hrest⟩ := List.pairwise_cons.mp hpairwise
    rcases List.mem_cons.mp hc with rfl | hlater <;> rcases List.mem_cons.mp hc' with rfl | hlater'
    · exact absurd rfl hne
    · exact .inl (hfirst c' hlater')
    · exact .inr (hfirst c hlater)
    · exact ih hlater hlater' hrest

end Chain

/-- Whether a graph is another one in which a constructor may be noted at a node. -/
def NotedAt (node : NodeId) (g g' : Graph) : Prop :=
  g' = g ∨ ∃ index, g.modifyNode node (chosen index) = .ok g'

/-- What noting a constructor keeps holds of nodes afterwards. -/
theorem NotedAt.has {g g' : Graph} (h : NotedAt node g g') {n : NodeId} {p : Node → Prop}
    (hp : ∀ index content, p content → p (chosen index content)) (hn : g.Has n p) :
    g'.Has n p := by
  obtain rfl | ⟨index, hg⟩ := h
  · exact hn
  · exact hn.of_modifyNode hg (hp index)

theorem NotedAt.has_of_ne {g g' : Graph} (h : NotedAt node g g') {n : NodeId} {p : Node → Prop}
    (hne : n ≠ node) (hn : g.Has n p) : g'.Has n p := by
  obtain rfl | ⟨index, hg⟩ := h
  · exact hn
  · exact hn.of_modifyNode_ne hg hne

theorem NotedAt.taken_eq {g g' : Graph} (h : NotedAt node g g') :
    g'.nodes.taken = g.nodes.taken := by
  obtain rfl | ⟨index, hg⟩ := h
  · rfl
  · rw [Graph.modifyNode_eq_ok hg, Pool.taken_modify]

theorem NotedAt.edges_eq {g g' : Graph} (h : NotedAt node g g') : g'.edges = g.edges := by
  obtain rfl | ⟨index, hg⟩ := h
  · rfl
  · exact Graph.edges_modifyNode hg

theorem NotedAt.hasEdge_iff {g g' : Graph} (h : NotedAt node g g') (e : Edge) :
    g'.HasEdge e ↔ g.HasEdge e :=
  Graph.hasEdge_congr (congrArg Pool.entries h.edges_eq) e

/-- How an attempt succeeds that begins where what failed before was taken back: by a chain of calls
for all its links. -/
structure Attempt.Prevails (resolver : Resolver) (context : Context) (node : NodeId) (a : Attempt)
    (s s₁ : State) : Prop where
  /-- The edges of what failed before were taken back. -/
  edges : a.state.graph.edges.entries = s.graph.edges.entries
  /-- So were its nodes. -/
  nodes : a.state.graph.nodes.entries = s.graph.nodes.entries
  /-- So were the instances that it shared. -/
  shared : a.state.shared = s.shared
  /-- So were its issues. -/
  issues : a.state.issues = s.issues
  /-- Its calls have answers. -/
  chain : Chain resolver context node (calls (following resolver) context node a.jobs a.state)
    a.state s₁
  /-- They are those for its links. -/
  links : (calls (following resolver) context node a.jobs a.state).map Call.link =
    a.jobs.filterMap Job.link?
  /-- It records no issue. -/
  quiet : ∀ issue, .complain issue ∉ a.jobs

/-- How work succeeds: its last attempt does, and the number of the alternative that it is for, if
there are several, is noted at the node. -/
structure Work.Succeeds (resolver : Resolver) (context : Context) (node : NodeId) (work : Work)
    (s : State) (a : Attempt) (s₁ s' : State) : Prop
    extends a.Prevails resolver context node s s₁ where
  /-- No attempt was made after it. -/
  last : (work.attempts (following resolver) context node s).getLast? = some a
  /-- It is for the work or for an alternative, which is noted. -/
  noted : work = .once a.jobs ∧ s' = s₁ ∨ ∃ alternatives index g, work = .choice alternatives ∧
    (a.jobs, index) ∈ alternatives ∧ s₁.graph.modifyNode node (chosen index) = .ok g ∧
      s' = { s₁ with graph := g }

/-- Jobs that all succeed where they are begun do so without anything to be taken back. -/
theorem prevails_of_performAll {jobs : List Job}
    (hgrows : Grows resolver (following resolver) context jobs) {s s₁ : State}
    (hs : s.Consistent resolver) (hp : context.Placed resolver s.graph)
    (h : performAll (following resolver) context node jobs s = .ok (true, s₁)) :
    Attempt.Prevails resolver context node ⟨jobs, s⟩ s s₁ :=
  ⟨rfl, rfl, rfl, rfl, chain_of_performAll hgrows hs hp h, links_of_performAll h,
    quiet_of_performAll h⟩

/-- A choice succeeds by the alternative that is tried last. -/
theorem tryAll_succeeds {alternatives : List (List Job × Nat)} {found : List Issue}
    (hgrows : Grows resolver (following resolver) context (alternatives.flatMap Prod.fst))
    {s s' : State} (hs : s.Consistent resolver) (hp : context.Placed resolver s.graph)
    (h : tryAll (following resolver) context node alternatives found s = .ok (true, s')) :
    ∃ a s₁ index g, (tried (following resolver) context node alternatives s).getLast? = some a ∧
      a.Prevails resolver context node s s₁ ∧ (a.jobs, index) ∈ alternatives ∧
      s₁.graph.modifyNode node (chosen index) = .ok g ∧ s' = { s₁ with graph := g } := by
  induction alternatives generalizing s found with
  | nil => cases h
  | cons first rest ih =>
    obtain ⟨jobs, index⟩ := first
    obtain ⟨hjobs, hrest⟩ := hgrows.of_flatMap_cons
    rcases tryAll_cons_eq_ok h with ⟨s₁, g, hall, hg, -, rfl⟩ | ⟨s₁, r, hall, hback, hothers⟩
    · rw [tried_cons_of_succeeds hall]
      exact ⟨⟨jobs, s⟩, s₁, index, g, rfl, prevails_of_performAll hjobs hs hp hall,
        List.mem_cons_self, hg, rfl⟩
    · obtain ⟨hx, hs₁⟩ := performAll_extends hjobs hs hp hall
      obtain ⟨g, hok, hx₂, hs₂, hnodes, hedges⟩ := hx.rollback hs hs₁
      cases hback.symm.trans hok
      obtain ⟨a, s₃, i, g', hlast, hprevails, hmem, hg', heq⟩ :=
        ih hrest hs₂ (hp.of_extends hx₂.graph hs.graph hs₂.graph) hothers
      refine ⟨a, s₃, i, g', ?_, ?_, List.mem_cons_of_mem _ hmem, hg', heq⟩
      · rw [tried_cons_of_ok hall hback, List.getLast?_cons, hlast]
        rfl
      · exact { hprevails with
          edges := hprevails.edges.trans hedges
          nodes := hprevails.nodes.trans hnodes }

/-- Work succeeds by the attempt that is made last. -/
theorem carryOut_succeeds {work : Work}
    (hgrows : Grows resolver (following resolver) context work.jobs) {s s' : State}
    (hs : s.Consistent resolver) (hp : context.Placed resolver s.graph)
    (h : work.carryOut (following resolver) context node s = .ok (true, s')) :
    ∃ a s₁, work.Succeeds resolver context node s a s₁ s' := by
  cases work with
  | once jobs =>
    exact ⟨⟨jobs, s⟩, s', prevails_of_performAll hgrows hs hp h, rfl, .inl ⟨rfl, rfl⟩⟩
  | choice alternatives =>
    obtain ⟨a, s₁, index, g, hlast, hprevails, hmem, hg, heq⟩ := tryAll_succeeds hgrows hs hp h
    exact ⟨a, s₁, hprevails, hlast, .inr ⟨alternatives, index, g, rfl, hmem, hg, heq⟩⟩

end Work

end Injector.Wiring
