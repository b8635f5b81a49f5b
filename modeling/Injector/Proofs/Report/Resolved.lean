import Injector.Proofs.Graph.Captures
import Injector.Proofs.Report.Connection
import Injector.Proofs.Wiring.Sharing
import Injector.Proofs.Wiring.Silence

/-!
# What a resolved root consists of

When a root is resolved, whatever failed on the way was taken back. The main statements are that
nothing is found while a root is built that is resolved, that its graph has no node but those which
the root needs, and that it has one instance of a binding where the lifetime asks for one.
-/

namespace Injector

/-- Whether a number stands for an instance of a binding under choices for its markers. -/
def Graph.IsInstance (g : Graph) (id : BindingId) (s : Substitution) (n : NodeId) : Prop :=
  g.Has n fun node => ∃ constructor, node.origin = .binding id s constructor

namespace Wiring

variable {resolver : Resolver} {root : Table.Root} {cycles : CycleLog} {b : RootBuild}

section Resolved

variable (h : buildRoot resolver root cycles = .ok b) (hresolved : b.isResolved = true)

include h hresolved

/-- Every node of a resolved root was created by a query that is retained on the way. -/
theorem buildRoot_nodes {n : NodeId} {node : Node} (hn : b.graph.nodes.get? n = some node) :
    ∃ d, (Query.ofRoot root cycles).Retains resolver d ∧ d.nodeNumber = n ∧
      d.Creates resolver node := by
  have hroot := Query.ofRoot_proper resolver root cycles
  obtain ⟨start, s, -, hout, hnodes, -⟩ := buildRoot_resolved h hresolved
  rw [hnodes] at hn
  have htaken : n ∈ s.graph.nodes.taken := Pool.get?_isSome_iff.mp (by simp [hn])
  rcases Query.outcome_nodes hroot hout htaken with hold | ⟨d, hd, rfl, content, hcreates⟩
  · cases hold
  · obtain ⟨node', hnode', hcreates'⟩ :=
      (Query.outcome_traced hroot hout).creates hroot hd hcreates
    cases hn.symm.trans hnode'
    exact ⟨d, hd, rfl, hcreates'⟩

/-- What a query creates that is retained on the way is a node of the resolved root. -/
theorem has_of_creates {d : Query} (hd : (Query.ofRoot root cycles).Retains resolver d)
    {node : Node} (hcreates : d.Creates resolver node) :
    b.graph.Has d.nodeNumber (d.Creates resolver) := by
  have hroot := Query.ofRoot_proper resolver root cycles
  obtain ⟨s, htraced, hnodes, -⟩ := buildRoot_traced h hresolved
  obtain ⟨content, hget, hcontent⟩ := htraced.creates hroot hd hcreates
  exact ⟨content, hnodes ▸ hget, hcontent⟩

/-- What is there when a query is asked on the way to a resolved root stays as it is, but for
constructors that are noted. -/
theorem has_iff_of_retains {q : Query} (hq : (Query.ofRoot root cycles).Retains resolver q)
    {k : NodeId} (hk : k ∈ q.state.graph.nodes.taken) {p : Node → Prop}
    (hp : ∀ index node, p (chosen index node) ↔ p node) :
    b.graph.Has k p ↔ q.state.graph.Has k p := by
  obtain ⟨s, htraced, hnodes, -⟩ := buildRoot_traced h hresolved
  rw [Graph.Has, hnodes]
  exact htraced.has_iff (Query.ofRoot_proper resolver root cycles) hq hk hp

/-- A resolved root has the edges of the calls that are retained on the way, and no others. -/
theorem buildRoot_hasEdge_iff (e : Edge) :
    b.graph.HasEdge e ↔ ∃ d c n, (Query.ofRoot root cycles).Connects resolver d c n ∧
      e = c.link.wire.edge d.nodeNumber n := by
  obtain ⟨s, htraced, -, hedges⟩ := buildRoot_traced h hresolved
  rw [Graph.hasEdge_congr (congrArg Pool.entries hedges)]
  constructor
  · intro he
    rcases htraced.traced e he with ⟨k, hk⟩ | hconnects
    · cases hk
    · exact hconnects
  · rintro ⟨d, c, n, hconnects, rfl⟩
    exact htraced.connected d c n hconnects

/-- A query that is retained on the way to a resolved root has an answer: its value, if it makes
one. -/
theorem exists_answer {d : Query} (hd : (Query.ofRoot root cycles).Retains resolver d) :
    ∃ n s, d.outcome resolver = .ok (some n, s) ∧ (d.Makes resolver → n = d.nodeNumber) := by
  have hroot := Query.ofRoot_proper resolver root cycles
  obtain ⟨t, htraced, -⟩ := buildRoot_traced h hresolved
  obtain ⟨n, s, hout, -⟩ := htraced.answered d hd
  refine ⟨n, s, hout, ?_⟩
  rintro ⟨m, hm⟩
  exact (Query.exists_made (hroot.of_retains hd).1 hm hout).1

/-- What answers a query that is retained is needed by the root. -/
theorem reachable_of_retains {d : Query} (hd : (Query.ofRoot root cycles).Retains resolver d)
    {n : NodeId} {s : State} (hout : d.outcome resolver = .ok (some n, s)) :
    b.graph.Reachable n := by
  have hroot := Query.ofRoot_proper resolver root cycles
  induction hd generalizing n s with
  | refl =>
    obtain ⟨start, s', hstart, hout', -⟩ := buildRoot_resolved h hresolved
    obtain ⟨hn, -⟩ := Prod.mk.inj (Except.ok.inj (hout.symm.trans hout'))
    exact ⟨n, hstart.trans hn.symm, .refl⟩
  | @tail d _ hd hkeeps ih =>
    obtain ⟨c, hc, rfl⟩ := hkeeps
    have hmakes := ((hroot.of_retains hd).1.of_mem_lastCalls hc).1
    obtain ⟨k, s', hmade, hvalue⟩ := exists_answer h hresolved hd
    obtain rfl := hvalue hmakes
    obtain ⟨start, hstart, hreach⟩ := ih hmade
    obtain ⟨i, hi⟩ := (buildRoot_hasEdge_iff h hresolved _).mpr ⟨d, c, n, ⟨hd, hc, s, hout⟩, rfl⟩
    exact ⟨start, hstart, hreach.tail ⟨_, Graph.mem_dependencies.mpr ⟨i, hi, rfl⟩, rfl⟩⟩

end Resolved

/-- When a root is resolved, nothing was found while it was built, and every node of its graph is
needed: whatever failed was taken back, with its issues and its nodes. -/
theorem resolved_clean (h : buildRoot resolver root cycles = .ok b)
    (hresolved : b.isResolved = true) :
    b.issues = [] ∧ ∀ n ∈ b.graph.nodes.taken, b.graph.Reachable n := by
  have hroot := Query.ofRoot_proper resolver root cycles
  constructor
  · obtain ⟨start, s, -, hout, -, -, hissues⟩ := buildRoot_resolved h hresolved
    have hgrave : (Query.ofRoot root cycles).state.Grave := fun f hf => (nomatch hf)
    obtain ⟨-, new, heq, -, hnil⟩ := Query.outcome_finds hroot hgrave hout
    rw [hissues, heq, hnil.mpr (Query.hushed_of_answer hout)]
    rfl
  · intro n hn
    obtain ⟨node, hnode⟩ := Option.isSome_iff_exists.mp (Pool.get?_isSome_iff.mpr hn)
    obtain ⟨d, hd, rfl, hcreates⟩ := buildRoot_nodes h hresolved hnode
    obtain ⟨k, s, hout, -⟩ := exists_answer h hresolved hd
    obtain ⟨rfl, -⟩ := hcreates.answer (hroot.of_retains hd).1 hout
    exact reachable_of_retains h hresolved hd hout

/-- A service with a constructor that is tried first and rejected after some of its parameters were
made. -/
def rejectedParameter : Setup :=
  .sample [("IS", "Sv", [[.named "IA" [], .named "Func" [.named "IB" []], .named "IMissing" []],
    [.named "IB" []]]), ("IA", "A", [[.named "IB" []]]), ("IB", "B", [[]])] ["IS"]

/-- Nothing is left over of the parameters that were made for the rejected constructor. -/
theorem resolved_clean_rejectedParameter :
    ∃ b, buildRoot (.ofSetup rejectedParameter) rejectedParameter.firstRoot .empty = .ok b ∧
      b.isResolved = true ∧ b.graph.nodes.size = 2 ∧ b.issues = [] ∧
      ∀ n ∈ b.graph.nodes.taken, b.graph.Reachable n := by
  have hbuilt : ((buildRoot (.ofSetup rejectedParameter) rejectedParameter.firstRoot
      .empty).toOption.any fun b => b.isResolved && b.graph.nodes.size == 2) = true := by
    decide +kernel
  cases hb : buildRoot (.ofSetup rejectedParameter) rejectedParameter.firstRoot .empty with
  | error e =>
    rw [hb] at hbuilt
    cases hbuilt
  | ok b =>
    rw [hb] at hbuilt
    obtain ⟨hresolved, hsize⟩ := Bool.and_eq_true_iff.mp hbuilt
    exact ⟨b, rfl, hresolved, by simpa using hsize, resolved_clean hb hresolved⟩

/-- A resolved root has one instance of a binding under given choices for its markers when the
lifetime of the binding is that of a resolution or longer, and one in each block when it is that of
a block. -/
theorem resolved_shares (h : buildRoot resolver root cycles = .ok b)
    (hresolved : b.isResolved = true) {id : BindingId} {r : Registration}
    (hr : resolver.table.bindings[id]? = some r) (s : Substitution) {n n' : NodeId}
    (hn : b.graph.IsInstance id s n) (hn' : b.graph.IsInstance id s n') :
    (r.lifetime = .perResolve ∨ r.lifetime = .scoped ∨ r.lifetime = .singleton → n = n') ∧
      (r.lifetime = .perBlock →
        ∀ block, b.graph.Has n (·.block = block) → b.graph.Has n' (·.block = block) → n = n') := by
  have hroot := Query.ofRoot_proper resolver root cycles
  obtain ⟨_, out, -, hout, -⟩ := buildRoot_resolved h hresolved
  obtain ⟨node, hnode, c, ho⟩ := hn
  obtain ⟨node', hnode', c', ho'⟩ := hn'
  obtain ⟨d, hd, rfl, hcreates⟩ := buildRoot_nodes h hresolved hnode
  obtain ⟨d', hd', rfl, hcreates'⟩ := buildRoot_nodes h hresolved hnode'
  obtain ⟨r₁, hr₁, hmakes, hblock⟩ := hcreates.makesBinding ho
  obtain ⟨r₂, hr₂, hmakes', hblock'⟩ := hcreates'.makesBinding ho'
  cases hr.symm.trans hr₁
  cases hr.symm.trans hr₂
  have hsame : ∀ k, SharedKey.of? r.lifetime id s d.context.block = some k →
      SharedKey.of? r.lifetime id s d'.context.block = some k → d.nodeNumber = d'.nodeNumber :=
    fun k hk hk' => congrArg Query.nodeNumber
      (Query.eq_of_shared_eq hroot hout hd hd' hmakes hmakes' hk hk')
  constructor
  · rintro (hl | hl | hl) <;> exact hsame ⟨id, s, none⟩ (by rw [hl]; rfl) (by rw [hl]; rfl)
  · intro hl block hhas hhas'
    obtain ⟨_, hget, rfl⟩ := hhas
    obtain ⟨_, hget', heq⟩ := hhas'
    cases hget.symm.trans hnode
    cases hget'.symm.trans hnode'
    refine hsame ⟨id, s, some d.context.block⟩ ?_ ?_ <;> rw [hl, SharedKey.of?]
    rw [← hblock, ← heq, hblock']

/-- A service with two parts that need it back and, in a provider call, each other; every instance
is kept for the resolution. -/
def sharedService : Setup :=
  { Setup.sample [("IS", "Sv", [[.named "IA" [], .named "IB" []]]),
      ("IA", "A", [[.named "Func" [.named "IS" []], .named "Func" [.named "IB" []]]]),
      ("IB", "B", [[.named "Func" [.named "IA" []]]])] ["IS"] with
    defaultLifetime := some .perResolve }

/-- The binding asked for at once, within two provider calls, and again has one instance. -/
theorem resolved_shares_sharedService :
    ∃ b r, buildRoot (.ofSetup sharedService) sharedService.firstRoot .empty = .ok b ∧
      b.isResolved = true ∧ (Resolver.ofSetup sharedService).table.bindings[2]? = some r ∧
      r.lifetime = .perResolve ∧ (∃ n, b.graph.IsInstance 2 .empty n) ∧
      ∀ n n', b.graph.IsInstance 2 .empty n → b.graph.IsInstance 2 .empty n' → n = n' := by
  have hbuilt : ((buildRoot (.ofSetup sharedService) sharedService.firstRoot
      .empty).toOption.any fun b => b.isResolved &&
        b.graph.nodes.taken.any fun n => decide (b.graph.Has n fun node =>
          node.origin = .binding 2 .empty (some 0))) = true := by
    decide +kernel
  have hregistered : ((Resolver.ofSetup sharedService).table.bindings[2]?.any fun r =>
      r.lifetime == .perResolve) = true := by decide +kernel
  obtain ⟨r, hr, hlifetime⟩ := (Option.any_eq_true _ _).mp hregistered
  have hlifetime : r.lifetime = .perResolve := by simpa using hlifetime
  cases hb : buildRoot (.ofSetup sharedService) sharedService.firstRoot .empty with
  | error e =>
    rw [hb] at hbuilt
    cases hbuilt
  | ok b =>
    rw [hb] at hbuilt
    obtain ⟨hresolved, hinstance⟩ := Bool.and_eq_true_iff.mp hbuilt
    obtain ⟨n, -, hn⟩ := List.any_eq_true.mp hinstance
    have hn : b.graph.IsInstance 2 .empty n :=
      (of_decide_eq_true hn).mono fun node ho => ⟨some 0, ho⟩
    refine ⟨b, r, rfl, hresolved, hr, hlifetime, ⟨n, hn⟩, fun n n' hn hn' => ?_⟩
    exact (resolved_shares hb hresolved hr .empty hn hn').1 (.inl hlifetime)

end Wiring

end Injector
