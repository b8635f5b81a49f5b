import Injector.Proofs.Graph.Search

/-!
# Graphs without loops of eager dependencies

The first search leaves every node, so that the second one starts from each node that it has not met
yet. When each of its components is a single node without an edge to itself, it meets every node
after all that the node eagerly depends on. The main statements are that components are made of
nodes of the graph, and that without a loop eager dependencies are well-founded.
-/

namespace Injector.Graph

variable {g : Graph}

/-- The eager successors of a node are the targets of its eager edges. -/
theorem mem_eagerSuccessors {n m : NodeId} :
    m ∈ g.eagerSuccessors n ↔
      ∃ e ∈ g.edges.entries, e.2.source = n ∧ e.2.target = m ∧ e.2.timing = .eager := by
  simp only [eagerSuccessors, outgoing, List.mem_filterMap, List.mem_filter, beq_iff_eq]
  constructor
  · rintro ⟨e, ⟨he, hs⟩, ht⟩
    split at ht
    · exact ⟨e, he, hs, Option.some.inj ht, by assumption⟩
    · cases ht
  · rintro ⟨e, he, hs, rfl, ht⟩
    exact ⟨e, ⟨he, hs⟩, if_pos ht⟩

/-- The eager predecessors of a node are the sources of the eager edges that lead to it. -/
theorem mem_eagerPredecessors {n m : NodeId} :
    m ∈ g.eagerPredecessors n ↔
      ∃ e ∈ g.edges.entries, e.2.target = n ∧ e.2.source = m ∧ e.2.timing = .eager := by
  simp only [eagerPredecessors, incoming, List.mem_filterMap, List.mem_filter, beq_iff_eq]
  constructor
  · rintro ⟨e, ⟨he, ht⟩, hs⟩
    split at hs
    · exact ⟨e, he, ht, Option.some.inj hs, by assumption⟩
    · cases hs
  · rintro ⟨e, he, ht, rfl, hs⟩
    exact ⟨e, ⟨he, ht⟩, if_pos hs⟩

/-- Successors are in use. -/
theorem Consistent.eagerSuccessors_mem (h : g.Consistent) {n m : NodeId}
    (hm : m ∈ g.eagerSuccessors n) : m ∈ g.nodes.taken := by
  obtain ⟨e, he, -, rfl, -⟩ := mem_eagerSuccessors.mp hm
  exact h.target_mem e he

/-- Predecessors are in use. -/
theorem Consistent.eagerPredecessors_mem (h : g.Consistent) {n m : NodeId}
    (hm : m ∈ g.eagerPredecessors n) : m ∈ g.nodes.taken := by
  obtain ⟨e, he, -, rfl, -⟩ := mem_eagerPredecessors.mp hm
  exact h.source_mem e he

/-- Each edge is counted at one node that it leads to. -/
theorem Consistent.sum_incoming (h : g.Consistent) :
    ∑ n ∈ g.places, (g.incoming n).length = g.edges.size :=
  sum_length_filter (fun e => e.2.target) fun e he => mem_places.mpr (h.target_mem e he)

/-- The numbers of a pool are those in use. -/
theorem mem_numbers {p : Pool Node} {n : Nat} : n ∈ p.numbers ↔ n ∈ p.taken := by
  simp [Pool.numbers, Pool.ascending, Pool.taken, sortOn]

/-- The steps of a search cover one for its start and, for each node, one and its edges. -/
theorem Consistent.searchSteps_le (h : g.Consistent) :
    1 + ∑ n ∈ g.places, ((g.eagerPredecessors n).length + 1) ≤ g.searchSteps := by
  have hle : ∑ n ∈ g.places, ((g.eagerPredecessors n).length + 1) ≤
      ∑ n ∈ g.places, ((g.incoming n).length + 1) :=
    Finset.sum_le_sum fun n _ => Nat.succ_le_succ (List.length_filterMap_le _ _)
  have hsum : ∑ n ∈ g.places, ((g.incoming n).length + 1) = g.edges.size + g.nodes.size := by
    rw [Finset.sum_add_distrib, h.sum_incoming, Finset.sum_const_nat (fun _ _ => rfl), mul_one,
      h.card_places]
  rw [searchSteps]
  omega

/-- A search from a node, unless the node was met before. -/
private def visit (g : Graph) (s : Search) (n : NodeId) : Search :=
  if n ∈ s.met then s else leaveFrom g.eagerPredecessors g.searchSteps [n] s

/-- Searches from nodes one after the other, each of which leaves what it meets, take off the
nodes. -/
private theorem Consistent.visits_foldl (h : g.Consistent) {ns : List NodeId} {s : Search}
    (hns : ∀ n ∈ ns, n ∈ g.nodes.taken) (hs : ∀ n, n ∈ s.met ↔ n ∈ s.left) :
    s.Visits g.eagerPredecessors ns (ns.foldl g.visit s) := by
  induction ns generalizing s with
  | nil => exact .done s
  | cons n ns ih =>
    obtain ⟨hn, hrest⟩ := List.forall_mem_cons.mp hns
    have hvisit : s.Visits g.eagerPredecessors [n] (g.visit s n) := by
      unfold visit
      split
      · next hold => exact .old hold ((hs n).mp hold) (.done s)
      · have hfuel : ([n] ++ []).length +
            unspent (fun n => (g.eagerPredecessors n).length + 1) g.places s.met ≤
              g.searchSteps := by
          have hle := unspent_le_sum (fun n => (g.eagerPredecessors n).length + 1) g.places s.met
          have hsteps := h.searchSteps_le
          rw [List.append_nil, List.length_singleton]
          omega
        obtain ⟨t, fuel, hvisits, -, -, heq⟩ := exists_visits
          (fun n m hm => mem_places.mpr (h.eagerPredecessors_mem hm)) []
          (List.forall_mem_singleton.mpr (mem_places.mpr hn))
          ⟨fun n hn => (hs n).mpr hn, fun n _ hn => (hs n).mp hn⟩ hfuel
        rw [List.append_nil, leaveFrom_nil] at heq
        rwa [heq]
    obtain ⟨new, hadds⟩ := hvisit.exists_adds
    exact hvisit.cons (ih hrest (hadds.met_iff hs))

/-- The first search takes off every node of the graph. -/
private theorem Consistent.exists_leavingOrder (h : g.Consistent) :
    ∃ t, Search.Visits g.eagerPredecessors g.nodes.numbers ⟨[], []⟩ t ∧ g.leavingOrder = t.left :=
  ⟨_, h.visits_foldl (fun n hn => mem_numbers.mp hn) (by simp), rfl⟩

/-- The first search leaves every node of the graph, and nothing else. -/
theorem Consistent.mem_leavingOrder (h : g.Consistent) {n : NodeId} :
    n ∈ g.leavingOrder ↔ n ∈ g.nodes.taken := by
  obtain ⟨t, hvisits, heq⟩ := h.exists_leavingOrder
  obtain ⟨new, hadds⟩ := hvisits.exists_adds
  rw [heq, ← mem_numbers]
  constructor
  · intro hn
    rw [hadds.left, List.append_nil] at hn
    obtain ⟨m, hm, hreach⟩ := hadds.reached n hn
    cases hreach with
    | refl => exact hm
    | tail _ hstep => exact mem_numbers.mpr (h.eagerPredecessors_mem hstep)
  · exact fun hn => (hadds.met_iff (by simp) n).mp (hadds.stack n hn)

/-- The nodes are listed as a search against the eager edges leaves them. -/
theorem Consistent.leaving_leavingOrder (h : g.Consistent) :
    Leaving g.eagerPredecessors g.leavingOrder := by
  obtain ⟨t, hvisits, heq⟩ := h.exists_leavingOrder
  rw [heq]
  exact hvisits.leaving .nil (by simp)

/-- A node that was not met yet begins a component, which the second search meets. -/
theorem Consistent.exists_component (h : g.Consistent) {n : NodeId} (hn : n ∈ g.nodes.taken)
    {met : List NodeId} (hnew : n ∉ met) (rest : List NodeId) :
    ∃ component, Search.Meets g.eagerSuccessors [n] met component ∧
      g.componentsFrom met (n :: rest) =
        component :: g.componentsFrom (component.reverse ++ met) rest := by
  have hsum : ∑ n ∈ g.places, (g.eagerSuccessors n).length ≤ g.edges.size :=
    (Finset.sum_le_sum fun n _ => List.length_filterMap_le _ _).trans_eq h.sum_outgoing
  have hfuel : [n].length + unspent (fun n => (g.eagerSuccessors n).length) g.places met ≤
      g.searchSteps := by
    have hle := unspent_le_sum (fun n => (g.eagerSuccessors n).length) g.places met
    rw [searchSteps, List.length_singleton]
    omega
  obtain ⟨component, hmeets, heq⟩ := exists_meets
    (fun n m hm => mem_places.mpr (h.eagerSuccessors_mem hm)) []
    (List.forall_mem_singleton.mpr (mem_places.mpr hn)) hfuel
  refine ⟨component, hmeets, ?_⟩
  rw [componentsFrom, if_neg hnew]
  simp [heq]

/-- What a search meets from a node in use is in use. -/
theorem Consistent.mem_of_meets (h : g.Consistent) {n : NodeId} (hn : n ∈ g.nodes.taken)
    {met component : List NodeId} (hmeets : Search.Meets g.eagerSuccessors [n] met component) :
    ∀ m ∈ component, m ∈ g.nodes.taken := by
  intro m hm
  obtain ⟨k, hk, hreach⟩ := hmeets.reached m hm
  cases hreach with
  | refl =>
    obtain rfl := List.mem_singleton.mp hk
    exact hn
  | tail _ hstep => exact h.eagerSuccessors_mem hstep.1

/-- Components are made of nodes of the graph. -/
theorem Consistent.mem_of_mem_component (h : g.Consistent) {component : List NodeId}
    (hc : component ∈ g.eagerComponents) : ∀ n ∈ component, n ∈ g.nodes.taken := by
  have hfrom : ∀ {order met : List NodeId}, (∀ n ∈ order, n ∈ g.nodes.taken) →
      component ∈ g.componentsFrom met order → ∀ n ∈ component, n ∈ g.nodes.taken := by
    intro order
    induction order with
    | nil =>
      intro met _ hc
      cases hc
    | cons n rest ih =>
      intro met horder hc
      obtain ⟨hn, hrest⟩ := List.forall_mem_cons.mp horder
      by_cases hold : n ∈ met
      · rw [componentsFrom, if_pos hold] at hc
        exact ih hrest hc
      · obtain ⟨first, hmeets, heq⟩ := h.exists_component hn hold rest
        rw [heq] at hc
        rcases List.mem_cons.mp hc with rfl | hc
        · exact h.mem_of_meets hn hmeets
        · exact ih hrest hc
  exact hfrom (fun n hn => h.mem_leavingOrder.mp hn) hc

/-- Whether a node is made before another, which eagerly depends on it. -/
def Precedes (g : Graph) (m n : NodeId) : Prop := m ∈ g.eagerSuccessors n

/-- A node precedes another one that has an eager dependency on it. -/
theorem precedes_iff {m n : NodeId} : g.Precedes m n ↔
    ∃ e ∈ g.dependencies n, e.target = m ∧ e.timing = .eager := by
  simp only [Precedes, mem_eagerSuccessors, mem_dependencies]
  constructor
  · rintro ⟨⟨i, e⟩, he, hs, ht, htiming⟩
    exact ⟨e, ⟨i, he, hs⟩, ht, htiming⟩
  · rintro ⟨e, ⟨i, he, hs⟩, ht, htiming⟩
    exact ⟨⟨i, e⟩, he, hs, ht, htiming⟩

/-- A node that loops to itself precedes itself. -/
theorem hasSelfLoop_iff {n : NodeId} : g.hasSelfLoop n = true ↔ g.Precedes n n := by
  simp only [hasSelfLoop, Precedes, mem_eagerSuccessors, outgoing, List.any_eq_true,
    List.mem_filter, beq_iff_eq, Bool.and_eq_true]
  constructor
  · rintro ⟨e, ⟨he, hs⟩, ht, htiming⟩
    exact ⟨e, he, hs, ht, htiming⟩
  · rintro ⟨e, he, hs, ht, htiming⟩
    exact ⟨e, ⟨he, hs⟩, ht, htiming⟩

/-- Where no component is a loop, every node that the second search starts from comes after
finitely many. -/
private theorem Consistent.acc_of_componentsFrom (h : g.Consistent) {met order : List NodeId}
    (horder : ∀ n ∈ order, n ∈ g.nodes.taken) (hmet : ∀ n ∈ met, Acc g.Precedes n)
    (hloops : ∀ component ∈ g.componentsFrom met order, g.isLoop component = false) :
    ∀ n ∈ order, Acc g.Precedes n := by
  induction order generalizing met with
  | nil => simp
  | cons n rest ih =>
    obtain ⟨hn, hrest⟩ := List.forall_mem_cons.mp horder
    by_cases hold : n ∈ met
    · rw [componentsFrom, if_pos hold] at hloops
      exact List.forall_mem_cons.mpr ⟨hmet n hold, ih hrest hmet hloops⟩
    · obtain ⟨component, hmeets, heq⟩ := h.exists_component hn hold rest
      rw [heq] at hloops
      obtain ⟨hhere, hloops⟩ := List.forall_mem_cons.mp hloops
      simp only [isLoop, Bool.or_eq_false_iff, decide_eq_false_iff_not, not_lt] at hhere
      obtain ⟨hone, hself⟩ := hhere
      have hin : n ∈ component := (hmeets.stack n List.mem_cons_self).resolve_right hold
      obtain rfl : component = [n] := by
        obtain ⟨m, rfl⟩ := List.length_eq_one_iff.mp
          (le_antisymm hone (List.length_pos_of_mem hin))
        rw [List.mem_singleton.mp hin]
      have hacc : Acc g.Precedes n := by
        refine ⟨n, fun m hm => ?_⟩
        rcases hmeets.closed n hin m hm with hin | hin
        · obtain rfl := List.mem_singleton.mp hin
          have hloop := hasSelfLoop_iff.mpr hm
          simp [hloop] at hself
        · exact hmet m hin
      exact List.forall_mem_cons.mpr
        ⟨hacc, ih hrest (List.forall_mem_cons.mpr ⟨hacc, hmet⟩) hloops⟩

/-- Without a loop of eager dependencies, what is made before what is well-founded. -/
theorem Consistent.wellFounded_precedes (h : g.Consistent) (hloop : g.eagerLoop? = none) :
    WellFounded g.Precedes := by
  have hloops : ∀ component ∈ g.eagerComponents, g.isLoop component = false := by
    intro component hc
    simpa using List.find?_eq_none.mp hloop component hc
  have hacc := h.acc_of_componentsFrom (fun n hn => h.mem_leavingOrder.mp hn)
    (List.forall_mem_nil _) hloops
  refine ⟨fun n => ?_⟩
  by_cases hn : n ∈ g.nodes.taken
  · exact hacc n (h.mem_leavingOrder.mpr hn)
  · refine ⟨n, fun m hm => ?_⟩
    obtain ⟨e, he, rfl, -, -⟩ := mem_eagerSuccessors.mp hm
    exact absurd (h.source_mem e he) hn

/-- Whether no node is made before itself. -/
def Acyclic (g : Graph) : Prop := ∀ n, ¬ Relation.TransGen g.Precedes n n

/-- A graph in which no loop is found has none. -/
theorem Consistent.acyclic (h : g.Consistent) (hloop : g.eagerLoop? = none) : g.Acyclic :=
  fun n hn => (h.wellFounded_precedes hloop).transGen.irrefl.irrefl n hn

end Injector.Graph
