import Injector.Proofs.Graph.Components
import Injector.Proofs.Graph.Lifetimes
import Injector.Proofs.Report.Completion

/-!
# The path of a loop that is told

A loop is told by the contracts of a component, against the order in which the search met its nodes.
The nodes do need each other, so that a closed walk leads through all of them, but the order in
which they were met is no such walk. The main statement says what is told and when it is one.
-/

namespace Injector

open Wiring

namespace Graph

variable {g : Graph} {n m : NodeId} {component : List NodeId}

/-- Whether nodes are those of a walk that ends where it begins, each of them made with the one
before. -/
structure ClosedWalk (g : Graph) (ns : List NodeId) : Prop where
  /-- The walk takes a step. -/
  long : 2 ≤ ns.length
  /-- Each node needs the next one at once. -/
  chain : ns.IsChain g.ReceivesEagerly
  /-- The last node is the first one. -/
  closed : ns.head? = ns.getLast?

/-- Whether a path lists the contracts of nodes. -/
def IsListedAs (g : Graph) (ns : List NodeId) (path : String) : Prop :=
  ∃ nodes, List.Forall₂ (fun n node => g.node n = .ok node) ns nodes ∧
    path = " -> ".intercalate (nodes.map fun node => node.contract.text)

/-- The nodes of a component in the order in which they are told: those met last first, and the
first one again. -/
def toldOrder (component : List NodeId) : List NodeId :=
  component.reverse ++ component.getLast?.toList

/-- A node that needs another one, past others or not, leads there on a walk whose nodes lie between
them. -/
private theorem exists_walk_of_reach (h : Relation.ReflTransGen g.ReceivesEagerly n m) :
    ∃ past, List.IsChain g.ReceivesEagerly (n :: past) ∧ (n :: past).getLast? = some m ∧
      ∀ k ∈ n :: past, Relation.ReflTransGen g.ReceivesEagerly n k ∧
        Relation.ReflTransGen g.ReceivesEagerly k m := by
  induction h using Relation.ReflTransGen.head_induction_on with
  | refl => exact ⟨[], by simp, by simp, by simp [Relation.ReflTransGen.refl]⟩
  | @head a b hab hbm ih =>
    obtain ⟨past, hchain, hlast, hbetween⟩ := ih
    refine ⟨b :: past, List.isChain_cons_cons.mpr ⟨hab, hchain⟩, by simpa using hlast,
      List.forall_mem_cons.mpr ⟨⟨.refl, .head hab hbm⟩, fun k hk => ?_⟩⟩
    exact ⟨.head hab (hbetween k hk).1, (hbetween k hk).2⟩

/-- A walk goes on with one from its end. -/
private theorem isChain_append_of_getLast? {past more : List NodeId}
    (hpast : List.IsChain g.ReceivesEagerly (n :: past)) (hlast : (n :: past).getLast? = some m)
    (hmore : List.IsChain g.ReceivesEagerly (m :: more)) :
    List.IsChain g.ReceivesEagerly (n :: (past ++ more)) ∧
      (n :: (past ++ more)).getLast? = (m :: more).getLast? := by
  rw [List.isChain_cons] at hmore
  rw [← List.cons_append]
  refine ⟨List.isChain_append.mpr ⟨hpast, hmore.2, fun x hx => ?_⟩, ?_⟩
  · cases hlast.symm.trans hx
    exact hmore.1
  · rw [List.getLast?_append, hlast, List.getLast?_cons]
    cases more.getLast? <;> rfl

/-- A round through nodes that need the first one and are needed by it. -/
private theorem exists_round {ns : List NodeId} (h : ∀ m ∈ ns, g.NeedEachOther n m) :
    ∃ past, List.IsChain g.ReceivesEagerly (n :: past) ∧ (n :: past).getLast? = some n ∧
      (∀ m ∈ ns, m ∈ n :: past) ∧ ∀ m ∈ past, g.NeedEachOther n m := by
  induction ns with
  | nil => exact ⟨[], by simp⟩
  | cons m ns ih =>
    obtain ⟨hm, hns⟩ := List.forall_mem_cons.mp h
    obtain ⟨past, hchain, hlast, hall, hclass⟩ := ih hns
    obtain ⟨there, hthere, hthereLast, hthereClass⟩ := exists_walk_of_reach hm.1
    obtain ⟨back, hback, hbackLast, hbackClass⟩ := exists_walk_of_reach hm.2
    obtain ⟨hchain, hend⟩ := isChain_append_of_getLast? hback hbackLast hchain
    obtain ⟨hchain, hend'⟩ := isChain_append_of_getLast? hthere hthereLast hchain
    refine ⟨there ++ (back ++ past), hchain, by rw [hend', hend, hlast],
      List.forall_mem_cons.mpr ⟨?_, fun k hk => ?_⟩, ?_⟩
    · exact List.mem_append_left _ (List.mem_of_getLast? hthereLast)
    · rcases List.mem_cons.mp (hall k hk) with rfl | hk
      · exact List.mem_cons_self
      · simp [hk]
    · refine List.forall_mem_append.mpr ⟨fun k hk => ?_,
        List.forall_mem_append.mpr ⟨fun k hk => ?_, hclass⟩⟩
      · obtain ⟨hto, hfrom⟩ := hthereClass k (List.mem_cons_of_mem _ hk)
        exact ⟨hto, hfrom.trans hm.2⟩
      · obtain ⟨hto, hfrom⟩ := hbackClass k (List.mem_cons_of_mem _ hk)
        exact ⟨hm.1.trans hto, hfrom⟩

namespace Component

/-- Where a component has several nodes, each is needed at once by another one of them. -/
theorem exists_step (h : g.Component component) (hn : n ∈ component) (hm : m ∈ component)
    (hne : n ≠ m) : ∃ k ∈ component, k ≠ m ∧ g.ReceivesEagerly k m := by
  obtain ⟨hto, hback⟩ := (h.mem_iff n hn m).mp hm
  have hlast : ∀ {k}, Relation.ReflTransGen g.ReceivesEagerly n k → k = m →
      ∃ k ∈ component, k ≠ m ∧ g.ReceivesEagerly k m := by
    intro k hk
    induction hk with
    | refl => exact fun heq => absurd heq hne
    | @tail a b ha hstep ih =>
      rintro rfl
      by_cases heq : a = b
      · exact ih heq
      · exact ⟨a, (h.mem_iff n hn a).mpr ⟨ha, .head hstep hback⟩, heq, hstep⟩
  exact hlast hto rfl

/-- A walk that is closed leads through the nodes of a loop, and no others. A loop of one node is a
node that needs itself. -/
theorem exists_closedWalk (h : g.Component component) (hloop : g.isLoop component = true) :
    ∃ walk, g.ClosedWalk walk ∧ ∀ n, n ∈ walk ↔ n ∈ component := by
  obtain ⟨n, hn⟩ := List.exists_mem_of_ne_nil _ h.ne_nil
  obtain ⟨past, hchain, hlast, hall, hclass⟩ :=
    exists_round fun m hm => (h.mem_iff n hn m).mp hm
  have hmem : ∀ m, m ∈ n :: past ↔ m ∈ component := by
    refine fun m => ⟨fun hm => ?_, hall m⟩
    rcases List.mem_cons.mp hm with rfl | hm
    · exact hn
    · exact (h.mem_iff n hn m).mpr (hclass m hm)
  cases past with
  | cons k past => exact ⟨n :: k :: past, ⟨by simp, hchain, by rw [hlast]; rfl⟩, hmem⟩
  | nil =>
    simp only [List.mem_singleton] at hmem
    simp only [isLoop, Bool.or_eq_true, decide_eq_true_eq, List.any_eq_true] at hloop
    have hself : g.ReceivesEagerly n n := by
      rcases hloop with hlong | ⟨m, hm, hself⟩
      · have hone : component.length ≤ [n].length :=
          (List.subperm_of_subset h.nodup fun m hm => List.mem_singleton.mpr ((hmem m).mpr hm)
            ).length_le
        simp only [List.length_singleton] at hone
        omega
      · obtain rfl := (hmem m).mpr hm
        exact precedes_iff.mp (hasSelfLoop_iff.mp hself)
    exact ⟨[n, n], ⟨by simp, by simpa using hself, by simp⟩, fun m => by simp [← hmem]⟩

end Component

/-- What is told is a closed walk exactly when each node is needed by the one that was met after it,
and the last one by the first. -/
theorem closedWalk_toldOrder_iff (hne : component ≠ []) :
    g.ClosedWalk (toldOrder component) ↔
      component.IsChain (fun m n => g.ReceivesEagerly n m) ∧
        ∀ first ∈ component.head?, ∀ last ∈ component.getLast?, g.ReceivesEagerly first last := by
  obtain ⟨first, rest, rfl⟩ := List.exists_cons_of_ne_nil hne
  obtain ⟨before, last, heq⟩ : ∃ before last, first :: rest = before ++ [last] :=
    ⟨_, _, (List.dropLast_append_getLast hne).symm⟩
  have hlast : (first :: rest).getLast? = some last := by simp [heq]
  have hchain : (toldOrder (first :: rest)).IsChain g.ReceivesEagerly ↔
      (first :: rest).IsChain (fun m n => g.ReceivesEagerly n m) ∧
        g.ReceivesEagerly first last := by
    rw [toldOrder, hlast, List.isChain_append, List.isChain_reverse]
    simp
  have htold : toldOrder (first :: rest) = last :: before.reverse ++ [last] := by
    simp [toldOrder, heq]
  have hhead : (toldOrder (first :: rest)).head? = (toldOrder (first :: rest)).getLast? := by
    rw [htold, List.getLast?_concat, List.cons_append, List.head?_cons]
  have hlong : 2 ≤ (toldOrder (first :: rest)).length := by
    simp [htold]
  simp only [List.head?_cons, hlast, Option.mem_some_iff, forall_eq']
  exact ⟨fun h => hchain.mp h.chain, fun h => ⟨hlong, hchain.mpr h, hhead⟩⟩

/-- What is said of a component whose loop is told by a path. -/
structure ToldLoop (g : Graph) (component : List NodeId) (path : String) : Prop where
  /-- It is a component of the graph. -/
  isComponent : g.Component component
  /-- A closed walk leads through its nodes, and no others. -/
  exists_walk : ∃ walk, g.ClosedWalk walk ∧ ∀ n, n ∈ walk ↔ n ∈ component
  /-- The path lists its nodes against the order in which they were met, and the first again. -/
  listed : g.IsListedAs (toldOrder component) path
  /-- The path is a closed walk when each node is needed by the one met after it, and the last one
  by the first. -/
  closedWalk_iff : g.ClosedWalk (toldOrder component) ↔
    component.IsChain (fun m n => g.ReceivesEagerly n m) ∧
      ∀ first ∈ component.head?, ∀ last ∈ component.getLast?, g.ReceivesEagerly first last
  /-- One or two nodes are told by a closed walk. -/
  closedWalk_of_length_le : component.length ≤ 2 → g.ClosedWalk (toldOrder component)
  /-- A ring of more nodes is not. -/
  length_le_of_ring : (∀ n ∈ component, ∀ m ∈ component, ∀ k ∈ component,
    g.ReceivesEagerly n m → g.ReceivesEagerly n k → m = k) →
      g.ClosedWalk (toldOrder component) → component.length ≤ 2

namespace Component

/-- One or two nodes of a loop are told by a closed walk. -/
theorem closedWalk_of_length_le (h : g.Component component) (hloop : g.isLoop component = true)
    (hlength : component.length ≤ 2) : g.ClosedWalk (toldOrder component) := by
  rw [closedWalk_toldOrder_iff h.ne_nil]
  match component, h, hloop, hlength with
  | [], h, _, _ => exact absurd rfl h.ne_nil
  | [n], _, hloop, _ =>
    have hself : g.ReceivesEagerly n n :=
      precedes_iff.mp (hasSelfLoop_iff.mp (by simpa [isLoop] using hloop))
    simpa using hself
  | [n, m], h, _, _ =>
    have hne : n ≠ m := by simpa using h.nodup
    obtain ⟨k, hk, hkm, hto⟩ := h.exists_step (n := n) (m := m) (by simp) (by simp) hne
    obtain ⟨l, hl, hln, hback⟩ := h.exists_step (n := m) (m := n) (by simp) (by simp) hne.symm
    obtain rfl : k = n := by simpa [hkm] using hk
    obtain rfl : l = m := by simpa [hln] using hl
    simpa using ⟨hback, hto⟩

/-- In a ring the node met second is the only one that the first one needs, so that a closed walk
against the order has no third node. -/
theorem length_le_of_ring (h : g.Component component)
    (hring : ∀ n ∈ component, ∀ m ∈ component, ∀ k ∈ component,
      g.ReceivesEagerly n m → g.ReceivesEagerly n k → m = k)
    (hwalk : g.ClosedWalk (toldOrder component)) : component.length ≤ 2 := by
  obtain ⟨-, hends⟩ := (closedWalk_toldOrder_iff h.ne_nil).mp hwalk
  match component, h, hring, hends with
  | [], _, _, _ => simp
  | [n], _, _, _ => simp
  | [n, m], _, _, _ => simp
  | n :: m :: k :: rest, h, hring, hends =>
    obtain ⟨first, hfirst, hto⟩ := h.needed [n] m (k :: rest) rfl (by simp)
    obtain rfl := List.mem_singleton.mp hfirst
    obtain ⟨last, hlast⟩ : ∃ last, (k :: rest).getLast? = some last :=
      ⟨_, List.getLast?_eq_getLast_of_ne_nil (by simp)⟩
    have hin : last ∈ k :: rest := List.mem_of_getLast? hlast
    have hback : g.ReceivesEagerly first last :=
      hends first (by simp) last (by simpa [List.getLast?_cons_cons] using hlast)
    have heq : m = last := hring first (by simp) m (by simp) last
      (List.mem_cons_of_mem _ (List.mem_cons_of_mem _ hin)) hto hback
    have hnodup := (List.nodup_cons.mp (List.nodup_cons.mp h.nodup).2).1
    exact absurd (heq ▸ hin) hnodup

end Component

/-- A loop is told of the first component that is one, and alone. -/
theorem Consistent.loopDefect_of_mem_defects (h : g.Consistent) {table : Table}
    {root : Table.Root} {issues : List Issue} (hissues : g.defects table root = .ok issues)
    {issue : Issue} (hissue : issue ∈ issues) {path : String}
    (hmessage : issue.message = .cyclicDependency path) :
    ∃ component, g.eagerLoop? = some component ∧ g.loopDefect component = .ok issues := by
  unfold defects at hissues
  cases hroot : g.root with
  | none =>
    rw [hroot] at hissues
    cases hissues
    cases hissue
  | some start =>
    rw [hroot] at hissues
    obtain ⟨found, hfound, htold⟩ := bind_eq_ok.mp hissues
    split at htold
    · next component hloop => exact ⟨component, hloop, htold⟩
    · cases htold
      have hlifetime := h.isLifetimeDefect_of_walkDefects hroot hfound issue hissue
      rw [Issue.isLifetimeDefect, hmessage] at hlifetime
      cases hlifetime

/-- The issue about a loop lists its nodes. -/
theorem isListedAs_of_loopDefect {issues : List Issue} (h : g.loopDefect component = .ok issues)
    {issue : Issue} (hissue : issue ∈ issues) {path : String}
    (hmessage : issue.message = .cyclicDependency path) :
    issues = [issue] ∧ g.IsListedAs (toldOrder component) path := by
  obtain ⟨nodes, hnodes, htold⟩ := bind_eq_ok.mp h
  split at htold
  · next first last _ hlast =>
    cases htold
    obtain rfl := List.mem_singleton.mp hissue
    obtain rfl := Message.cyclicDependency.inj hmessage
    refine ⟨rfl, nodes.reverse ++ [last], ?_, rfl⟩
    have hreverse := List.forall₂_reverse_iff.mpr (mapM_eq_ok.mp hnodes)
    rw [← List.head?_reverse] at hlast
    rw [toldOrder, ← List.head?_reverse]
    refine List.rel_append hreverse ?_
    generalize component.reverse = ns, nodes.reverse = told at hreverse hlast
    cases hreverse with
    | nil => cases hlast
    | cons hn _ =>
      cases hlast
      exact .cons hn .nil
  · cases htold
    cases hissue

/-- A loop that is told is one: its path lists the nodes of a component through which a closed walk
leads, and is such a walk exactly when the nodes were met against their edges. -/
theorem Consistent.exists_toldLoop (h : g.Consistent) {table : Table} {root : Table.Root}
    {issues : List Issue} (hissues : g.defects table root = .ok issues) {issue : Issue}
    (hissue : issue ∈ issues) {path : String} (hmessage : issue.message = .cyclicDependency path) :
    issues = [issue] ∧ ∃ component, g.eagerLoop? = some component ∧ g.ToldLoop component path := by
  obtain ⟨component, heager, htold⟩ := h.loopDefect_of_mem_defects hissues hissue hmessage
  obtain ⟨hone, hlisted⟩ := isListedAs_of_loopDefect htold hissue hmessage
  have hcomponent := h.component_of_mem (List.mem_of_find?_eq_some heager)
  have hloop : g.isLoop component = true := by simpa using List.find?_some heager
  exact ⟨hone, component, heager, hcomponent, hcomponent.exists_closedWalk hloop, hlisted,
    closedWalk_toldOrder_iff hcomponent.ne_nil, hcomponent.closedWalk_of_length_le hloop,
    hcomponent.length_le_of_ring⟩

/-- A path begins with the first two contracts that it lists. -/
theorem IsListedAs.exists_prefix {rest : List NodeId} {path : String}
    (h : g.IsListedAs (n :: m :: rest) path) :
    ∃ a b, g.node n = .ok a ∧ g.node m = .ok b ∧
      (a.contract.text ++ " -> " ++ b.contract.text).toList <+: path.toList := by
  obtain ⟨_, hnodes, rfl⟩ := h
  cases hnodes with
  | @cons _ a _ _ ha hnodes =>
    cases hnodes with
    | @cons _ b _ more hb _ =>
      refine ⟨a, b, ha, hb, ?_⟩
      rw [List.map_cons, List.map_cons, String.toList_intercalate, List.map_cons, List.map_cons,
        List.intercalate_cons_cons, String.toList_append, String.toList_append]
      refine (List.prefix_append_right_inj _).mpr ?_
      cases more with
      | nil => simp
      | cons c more => simp [List.intercalate_cons_cons]

end Graph

/-- Three parts, each of which is made with the next one; the first also has a provider of the
second. -/
def delayedRing : Setup :=
  let base := Setup.sample [("IA", "A", [[.named "Func" [.named "IB" []], .named "IB" []]]),
    ("IB", "B", [[.named "IC" []]]), ("IC", "C", [[.named "IA" []]])] ["IA"]
  { base with bindings := base.bindings.map fun p => { p with lifetime := some .singleton } }

/-- The ring is told against its edges. -/
theorem defects_delayedRing :
    ∃ b, buildRoot (.ofSetup delayedRing) delayedRing.firstRoot .empty = .ok b ∧
      (∃ issue, b.graph.defects (Resolver.ofSetup delayedRing).table delayedRing.firstRoot =
        .ok [issue] ∧ issue.message = .cyclicDependency "IC -> IB -> IA -> IC") ∧
      ∀ walk, b.graph.ClosedWalk walk → ¬ b.graph.IsListedAs walk "IC -> IB -> IA -> IC" := by
  have hbuilt : ((buildRoot (.ofSetup delayedRing) delayedRing.firstRoot
      .empty).toOption.any fun b =>
        ((b.graph.defects (Resolver.ofSetup delayedRing).table
          delayedRing.firstRoot).toOption.any fun issues =>
            issues.map (·.message) == [.cyclicDependency "IC -> IB -> IA -> IC"]) &&
        b.graph.edges.entries.all fun e => e.2.timing != .eager ||
          (b.graph.node e.2.source).toOption.all fun s =>
            (b.graph.node e.2.target).toOption.all fun t =>
              !(s.contract.text ++ " -> " ++ t.contract.text).toList.isPrefixOf
                "IC -> IB -> IA -> IC".toList) = true := by
    decide +kernel
  obtain ⟨b, hb, hfacts⟩ := any_toOption.mp hbuilt
  obtain ⟨hdefects, hedges⟩ := Bool.and_eq_true_iff.mp hfacts
  obtain ⟨issues, hissues, hmessages⟩ := any_toOption.mp hdefects
  obtain ⟨issue, rfl, hmessage⟩ := List.map_eq_singleton_iff.mp (eq_of_beq hmessages)
  refine ⟨b, hb, ⟨issue, hissues, hmessage⟩, fun walk hwalk hlisted => ?_⟩
  obtain ⟨n, m, rest, rfl⟩ : ∃ n m rest, walk = n :: m :: rest := by
    match walk, hwalk.long with
    | n :: m :: rest, _ => exact ⟨n, m, rest, rfl⟩
  obtain ⟨s, t, hs, ht, hprefix⟩ := hlisted.exists_prefix
  obtain ⟨e, he, rfl, htiming⟩ := (List.isChain_cons_cons.mp hwalk.chain).1
  obtain ⟨i, hi, rfl⟩ := Graph.mem_dependencies.mp he
  have hedge := List.all_eq_true.mp hedges (i, e) hi
  simp only [htiming, hs, ht, Except.toOption, Option.all_some,
    List.isPrefixOf_iff_prefix.mpr hprefix, bne_self_eq_false, Bool.not_true, Bool.or_self,
    Bool.false_eq_true] at hedge

/-- The nodes of the ring need each other, and are told against this. -/
theorem exists_toldLoop_delayedRing :
    ∃ b component, buildRoot (.ofSetup delayedRing) delayedRing.firstRoot .empty = .ok b ∧
      b.graph.Consistent ∧
      (∃ issues, b.graph.defects (Resolver.ofSetup delayedRing).table delayedRing.firstRoot =
        .ok issues) ∧
      b.graph.ToldLoop component "IC -> IB -> IA -> IC" := by
  obtain ⟨b, hb, ⟨issue, hissues, hmessage⟩, -⟩ := defects_delayedRing
  obtain ⟨hconsistent, -⟩ := Wiring.buildRoot_consistent hb
  obtain ⟨-, component, -, htold⟩ :=
    hconsistent.exists_toldLoop hissues List.mem_cons_self hmessage
  exact ⟨b, component, hb, hconsistent, ⟨_, hissues⟩, htold⟩

/-- A path that is told is not always that of a closed walk. -/
theorem delayedRing_not_closedWalk :
    ¬ ∀ b, buildRoot (.ofSetup delayedRing) delayedRing.firstRoot .empty = .ok b →
      ∀ issues, b.graph.defects (Resolver.ofSetup delayedRing).table delayedRing.firstRoot =
        .ok issues → ∀ issue ∈ issues, ∀ path, issue.message = .cyclicDependency path →
          ∃ walk, b.graph.ClosedWalk walk ∧ b.graph.IsListedAs walk path := by
  intro hall
  obtain ⟨b, hb, ⟨issue, hissues, hmessage⟩, hnone⟩ := defects_delayedRing
  obtain ⟨walk, hwalk, hlisted⟩ := hall b hb _ hissues issue List.mem_cons_self _ hmessage
  exact hnone walk hwalk hlisted

end Injector
