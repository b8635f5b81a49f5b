import Injector.Proofs.Graph.Captures

/-!
# Components of eager dependencies

The second search begins with the node left last. What it meets past the nodes met before was left
before that node and leads to it, and whatever needs the node and is needed by it was not met
before. The main statement is that each component is the class of the nodes that need each other,
each listed once and after something that needs it.
-/

namespace Injector.Graph

variable {g : Graph} {n m k : NodeId}

theorem mem_eagerSuccessors_iff : m ∈ g.eagerSuccessors n ↔ g.ReceivesEagerly n m :=
  precedes_iff

theorem mem_eagerPredecessors_iff : m ∈ g.eagerPredecessors n ↔ g.ReceivesEagerly m n := by
  rw [← mem_eagerSuccessors_iff, mem_eagerSuccessors, mem_eagerPredecessors]
  exact exists_congr fun e => and_congr_right fun _ => and_left_comm

/-- Whether two nodes are the same or each is made with the other. -/
def NeedEachOther (g : Graph) (n m : NodeId) : Prop :=
  Relation.ReflTransGen g.ReceivesEagerly n m ∧ Relation.ReflTransGen g.ReceivesEagerly m n

namespace NeedEachOther

theorem symm (h : g.NeedEachOther n m) : g.NeedEachOther m n := And.symm h

theorem trans (h : g.NeedEachOther n m) (hm : g.NeedEachOther m k) : g.NeedEachOther n k :=
  ⟨h.1.trans hm.1, hm.2.trans h.2⟩

end NeedEachOther

/-- Whether a list of nodes is a component of the graph. -/
structure Component (g : Graph) (ns : List NodeId) : Prop where
  /-- It is not empty. -/
  ne_nil : ns ≠ []
  /-- No node is listed twice. -/
  nodup : ns.Nodup
  /-- The nodes are those that need, and are needed by, any of them. -/
  mem_iff : ∀ n ∈ ns, ∀ m, m ∈ ns ↔ g.NeedEachOther n m
  /-- Each node but the first is needed at once by one that is listed before it. -/
  needed : ∀ before m after, ns = before ++ m :: after → before ≠ [] →
    ∃ k ∈ before, g.ReceivesEagerly k m

/-- Whether a second search can go on with nodes that wait, last left first. -/
private structure Split (g : Graph) (met order : List NodeId) : Prop where
  /-- The nodes are listed as the first search leaves them. -/
  leaving : Leaving g.eagerPredecessors order
  /-- What waits are nodes. -/
  order_taken : ∀ n ∈ order, n ∈ g.nodes.taken
  /-- What was met leads only there. -/
  closed : ∀ n ∈ met, ∀ m, g.ReceivesEagerly n m → m ∈ met
  /-- Each node was met or waits. -/
  all : ∀ n ∈ g.nodes.taken, n ∈ met ∨ n ∈ order

private theorem Split.closed_reach {met order : List NodeId} (h : g.Split met order)
    (hn : n ∈ met) (hreach : Relation.ReflTransGen g.ReceivesEagerly n m) : m ∈ met := by
  induction hreach with
  | refl => exact hn
  | tail _ hstep ih => exact h.closed _ ih _ hstep

/-- What the second search meets from a node is what needs the node and is needed by it: a step past
what was met before stays among the node and what was left below it. -/
private theorem Split.mem_iff (hg : g.Consistent) {met rest component : List NodeId}
    (h : g.Split met (n :: rest)) (hnew : n ∉ met)
    (hmeets : Search.Meets g.eagerSuccessors [n] met component) :
    m ∈ component ↔ g.NeedEachOther n m := by
  have hin : n ∈ component := (hmeets.stack n List.mem_cons_self).resolve_right hnew
  constructor
  · intro hm
    obtain ⟨start, hstart, hreach⟩ := hmeets.reached m hm
    rw [List.mem_singleton.mp hstart] at hreach
    refine ⟨hreach.lift id fun a b hab => mem_eagerSuccessors_iff.mp hab.1, ?_⟩
    cases h.leaving with
    | @cons _ below before reached apart _ =>
      have hbelow : m ∈ n :: below := by
        clear hm
        induction hreach with
        | refl => exact List.mem_cons_self
        | @tail a b _ hstep ih =>
          obtain ⟨hab, hfresh⟩ := hstep
          have hwaits := (h.all b (hg.eagerSuccessors_mem hab)).resolve_left hfresh
          rw [← List.cons_append] at hwaits
          refine (List.mem_append.mp hwaits).resolve_right fun hbefore => ?_
          exact apart b hbefore a
            (mem_eagerPredecessors_iff.mpr (mem_eagerSuccessors_iff.mp hab)) ih
      rcases List.mem_cons.mp hbelow with rfl | hbelow
      · exact .refl
      · exact (reached m hbelow).swap.lift id fun a b hab => mem_eagerPredecessors_iff.mp hab
  · rintro ⟨hto, hback⟩
    induction hto with
    | refl => exact hin
    | @tail a b _ hstep ih =>
      refine (hmeets.closed a (ih (.head hstep hback)) b
        (mem_eagerSuccessors_iff.mpr hstep)).resolve_right fun hold => ?_
      exact hnew (h.closed_reach hold hback)

/-- Once a node was met, the search goes on with those behind it. -/
private theorem Split.tail {met rest more : List NodeId} (h : g.Split met (n :: rest))
    (hmet : ∀ m ∈ met, m ∈ more) (hn : n ∈ more)
    (hclosed : ∀ a ∈ more, ∀ b, g.ReceivesEagerly a b → b ∈ more) : g.Split more rest := by
  have hleaving : Leaving g.eagerPredecessors rest := by
    cases h.leaving with
    | cons _ _ hrest => exact hrest
  refine ⟨hleaving, (List.forall_mem_cons.mp h.order_taken).2, hclosed, fun a ha => ?_⟩
  rcases h.all a ha with hold | hwaits
  · exact .inl (hmet a hold)
  · rcases List.mem_cons.mp hwaits with rfl | hwaits
    · exact .inl hn
    · exact .inr hwaits

/-- What a search met besides leads only to what was met. -/
private theorem Split.closed_meets {met order component : List NodeId} (h : g.Split met order)
    (hmeets : Search.Meets g.eagerSuccessors [n] met component) :
    ∀ a ∈ component.reverse ++ met, ∀ b, g.ReceivesEagerly a b →
      b ∈ component.reverse ++ met := by
  intro a ha b hab
  rw [List.mem_append, List.mem_reverse] at ha ⊢
  rcases ha with ha | ha
  · exact hmeets.closed a ha b (mem_eagerSuccessors_iff.mpr hab)
  · exact .inr (h.closed a ha b hab)

/-- What the second search meets from a node is a component, whose first node is the one that the
search began with. -/
private theorem Split.component (hg : g.Consistent) {met rest component : List NodeId}
    (h : g.Split met (n :: rest)) (hnew : n ∉ met)
    (hmeets : Search.Meets g.eagerSuccessors [n] met component) : g.Component component := by
  have hin : n ∈ component := (hmeets.stack n List.mem_cons_self).resolve_right hnew
  have hclass : ∀ {m}, m ∈ component ↔ g.NeedEachOther n m := h.mem_iff hg hnew hmeets
  refine ⟨List.ne_nil_of_mem hin, hmeets.nodup, fun a ha b => ?_, fun before a after heq hne => ?_⟩
  · rw [hclass] at ha ⊢
    exact ⟨ha.symm.trans, ha.trans⟩
  · rcases hmeets.led before a after heq with hstart | ⟨b, hb, hba⟩
    · obtain ⟨first, before, rfl⟩ := List.exists_cons_of_ne_nil hne
      have hfirst : first ∈ [n] :=
        (hmeets.led [] first (before ++ a :: after) (by simpa using heq)).resolve_right (by simp)
      have hnodup := hmeets.nodup
      rw [heq, List.cons_append, List.nodup_cons, List.mem_singleton.mp hfirst,
        List.mem_singleton.mp hstart] at hnodup
      exact absurd (List.mem_append_right _ List.mem_cons_self) hnodup.1
    · exact ⟨b, hb, mem_eagerSuccessors_iff.mp hba⟩

private theorem Split.component_of_mem (hg : g.Consistent) {met order : List NodeId}
    (h : g.Split met order) {component : List NodeId}
    (hc : component ∈ g.componentsFrom met order) : g.Component component := by
  induction order generalizing met with
  | nil => cases hc
  | cons n rest ih =>
    by_cases hold : n ∈ met
    · rw [componentsFrom, if_pos hold] at hc
      exact ih (h.tail (fun m hm => hm) hold h.closed) hc
    · obtain ⟨first, hmeets, heq⟩ :=
        hg.exists_component (h.order_taken n List.mem_cons_self) hold rest
      rw [heq] at hc
      rcases List.mem_cons.mp hc with rfl | hc
      · exact h.component hg hold hmeets
      · have hmet : n ∈ first.reverse ++ met := by
          simpa using hmeets.stack n List.mem_cons_self
        exact ih (h.tail (fun m hm => List.mem_append_right _ hm) hmet (h.closed_meets hmeets)) hc

/-- The components that are found are components of the graph. -/
theorem Consistent.component_of_mem (h : g.Consistent) {component : List NodeId}
    (hc : component ∈ g.eagerComponents) : g.Component component := by
  have hsplit : g.Split [] g.leavingOrder :=
    ⟨h.leaving_leavingOrder, fun n hn => h.mem_leavingOrder.mp hn, by simp,
      fun n hn => .inr (h.mem_leavingOrder.mpr hn)⟩
  exact hsplit.component_of_mem h hc

end Injector.Graph
