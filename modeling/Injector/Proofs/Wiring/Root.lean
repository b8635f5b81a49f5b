import Injector.Proofs.Wiring.Completion

/-!
# Building the graph of a root

A root is built by following one query, with nothing built before it. The main statements are that
the graph of a root is consistent with its table, and that a root is built exactly when no query on
the way from it is answered by the number of a node that was taken back.
-/

namespace Injector.Wiring

/-- The query for a root, after loops that were reported for other roots. -/
def Query.ofRoot (root : Table.Root) (cycles : CycleLog) : Query :=
  ⟨⟨[], 0, 0⟩, .free root.contract, .eager, ⟨root.describe, root.location⟩, .start cycles⟩

/-- The graph that an answer to the query of a root leaves. -/
def State.rooted (s : State) (answer : Option NodeId) : Graph :=
  match answer with
  | some n => s.graph.setRoot n
  | none => s.graph

variable {resolver : Resolver} {root : Table.Root} {cycles : CycleLog}

theorem buildRoot_eq (resolver : Resolver) (root : Table.Root) (cycles : CycleLog) :
    buildRoot resolver root cycles = ((Query.ofRoot root cycles).outcome resolver).map fun r =>
      ⟨r.2.rooted r.1, r.2.issues, r.2.touched, r.2.cycles⟩ := by
  simp only [buildRoot, followRoot, Query.outcome, Follow.answer, Query.ofRoot, StateT.run,
    bind_apply]
  cases follow resolver (pathBound resolver) ⟨[], 0, 0⟩ (.free root.contract) .eager
    ⟨root.describe, root.location⟩ (.start cycles) with
  | error e => rfl
  | ok r =>
    obtain ⟨a, s⟩ := r
    cases a <;> rfl

/-- What is built of a root is the outcome of its query. -/
theorem buildRoot_eq_ok {b : RootBuild} (h : buildRoot resolver root cycles = .ok b) :
    ∃ a s, (Query.ofRoot root cycles).outcome resolver = .ok (a, s) ∧
      b = ⟨s.rooted a, s.issues, s.touched, s.cycles⟩ := by
  rw [buildRoot_eq] at h
  cases hout : (Query.ofRoot root cycles).outcome resolver with
  | error e =>
    rw [hout] at h
    cases h
  | ok r =>
    rw [hout] at h
    cases h
    exact ⟨r.1, r.2, rfl, rfl⟩

/-- What a key stands for is made. -/
theorem Key.Matches.made {key : Key} {node : Node} (h : key.Matches resolver node) :
    ∀ block index, node.origin ≠ .argument block index := by
  intro block index ho
  cases key with
  | binding id s =>
    obtain ⟨c, hc⟩ := h
    cases ho.symm.trans hc
  | contract c =>
    obtain ⟨-, pin, strategy, deps, args, -, hc⟩ := h
    cases ho.symm.trans hc

namespace Query

theorem ofRoot_proper (resolver : Resolver) (root : Table.Root) (cycles : CycleLog) :
    (ofRoot root cycles).Proper resolver where
  admits := resolver.admits_free _
  present := by simp [ofRoot, Context.bindings]
  bounded := by simp [ofRoot, Context.bindings]
  consistent := by
    refine ⟨Graph.consistent_empty, Pool.stacked_empty, rfl, ?_, ?_, ?_⟩
    · intro e he
      cases he
    · intro k hk
      cases hk
    · intro f hf
      cases hf
  placed := by
    intro f hf
    cases hf

/-- No argument of a provider call is visible to a root. -/
theorem ofRoot_visible (root : Table.Root) (cycles : CycleLog) :
    (ofRoot root cycles).visible? = none := by
  unfold visible?
  split <;> rfl

/-- The answer to the query of a root is a node that its contract accepts. -/
theorem ofRoot_accepts {n : NodeId} {s : State}
    (h : (ofRoot root cycles).outcome resolver = .ok (some n, s)) :
    s.graph.Has n (resolver.Accepts (.free root.contract)) := by
  rcases outcome_accepts (ofRoot_proper resolver root cycles) h with ⟨type, hvisible⟩ | hnode
  · rw [ofRoot_visible] at hvisible
    cases hvisible
  · exact hnode

/-- Nothing is under construction, shared or remembered when a root is asked for, so that an answer
is a new value. -/
theorem ofRoot_made {n : NodeId} {s : State}
    (h : (ofRoot root cycles).outcome resolver = .ok (some n, s)) : s.graph.Makes n := by
  have hq := ofRoot_proper resolver root cycles
  obtain ⟨v, hv, hsettle⟩ := outcome_eq_ok hq.toAdmissible h
  cases v with
  | argument a => cases (ofRoot_visible root cycles).symm.trans (verdict_eq_argument.mp hv)
  | linked m =>
    cases verdict_grounds hv with
    | binding hres hpath => cases hpath
    | shared hres hkey hknown => cases hknown
    | shape hres hpath => cases hpath
  | make m =>
    obtain ⟨s₁, ⟨hn, rfl, hwork⟩ | ⟨hn, -, -⟩⟩ := outcome_make_cases hq.toAdmissible hv h
    · cases hn
      have hm := verdict_grounds hv
      have hnode : m.key.StandsFor resolver s₁.graph (ofRoot root cycles).nodeNumber :=
        (carryOut_follows hq hm (hq.grows hv) hwork).has (begun_consistent hq hm)
          (begun_has _ m (content_of_make hm).1) fun index content hm => hm.chosen index
      rw [State.graph_sharing]
      exact hnode.mono fun node hm => hm.made
    · cases hn
  | unresolved => cases hsettle
  | loop members path => cases hsettle
  | recalled issues => cases hsettle

end Query

/-- The graph of a root is consistent, and its nodes are made for bindings of the table. -/
theorem buildRoot_consistent {b : RootBuild} (h : buildRoot resolver root cycles = .ok b) :
    b.graph.Consistent ∧ b.graph.Knows resolver.table := by
  obtain ⟨a, s, hout, rfl⟩ := buildRoot_eq_ok h
  obtain ⟨hx, hc⟩ := Query.outcome_extends (Query.ofRoot_proper resolver root cycles) hout
  cases a with
  | none => exact ⟨hc.graph, hc.known⟩
  | some n =>
    refine ⟨⟨hc.graph.nodes, hc.graph.edges, hc.graph.nodeLog, hc.graph.edgeLog,
      hc.graph.source_mem, hc.graph.target_mem, ?_⟩, hc.known⟩
    rintro m ⟨⟩
    exact (Query.ofRoot_accepts hout).mem_taken

/-- What was built of a root is what its query leaves, with the answer as the root of the graph. -/
theorem buildRoot_root {b : RootBuild} (h : buildRoot resolver root cycles = .ok b) :
    ∃ s, (Query.ofRoot root cycles).outcome resolver = .ok (b.graph.root, s) ∧
      b.graph.nodes = s.graph.nodes ∧ b.graph.edges = s.graph.edges ∧ b.issues = s.issues ∧
      b.cycles = s.cycles := by
  obtain ⟨a, s, hout, rfl⟩ := buildRoot_eq_ok h
  obtain ⟨hx, -⟩ := Query.outcome_extends (Query.ofRoot_proper resolver root cycles) hout
  cases a with
  | none =>
    have hnone : s.graph.root = none := hx.graph.root
    refine ⟨s, ?_, rfl, rfl, rfl, rfl⟩
    simpa only [State.rooted, hnone] using hout
  | some n => exact ⟨s, hout, rfl, rfl, rfl, rfl⟩

/-- What was built of a resolved root is what its query leaves with an answer. -/
theorem buildRoot_resolved {b : RootBuild} (h : buildRoot resolver root cycles = .ok b)
    (hresolved : b.isResolved = true) :
    ∃ start s, b.graph.root = some start ∧
      (Query.ofRoot root cycles).outcome resolver = .ok (some start, s) ∧
      b.graph.nodes = s.graph.nodes ∧ b.graph.edges = s.graph.edges ∧ b.issues = s.issues := by
  obtain ⟨s, hout, hnodes, hedges, hissues, -⟩ := buildRoot_root h
  obtain ⟨start, hstart⟩ := Option.isSome_iff_exists.mp hresolved
  rw [hstart] at hout
  exact ⟨start, s, hstart, hout, hnodes, hedges, hissues⟩

/-- The root of a graph that was built is made. -/
theorem buildRoot_made {b : RootBuild} (h : buildRoot resolver root cycles = .ok b) :
    ∀ n ∈ b.graph.root, b.graph.Makes n := by
  intro n hn
  obtain ⟨s, hout, hnodes, -⟩ := buildRoot_root h
  rw [Option.mem_def.mp hn] at hout
  obtain ⟨node, hnode, hmade⟩ := Query.ofRoot_made hout
  exact ⟨node, hnodes ▸ hnode, hmade⟩

/-- A root is built exactly when nothing on the way from it is answered by the number of a node that
was taken back. -/
theorem buildRoot_ok_iff :
    (∃ b, buildRoot resolver root cycles = .ok b) ↔
      ∀ d, Query.Reaches resolver (.ofRoot root cycles) d → ¬ d.Stale := by
  rw [← Query.completes_iff (Query.ofRoot_proper resolver root cycles)]
  constructor
  · rintro ⟨b, h⟩
    obtain ⟨a, s, hout, -⟩ := buildRoot_eq_ok h
    refine ⟨a, s, hout, fun n hn => ?_⟩
    cases hn
    exact (Query.ofRoot_accepts hout).mem_taken
  · rintro ⟨a, s, hout, -⟩
    rw [buildRoot_eq, hout]
    exact ⟨_, rfl⟩

end Injector.Wiring
