import Injector.Defect
import Injector.Proofs.Graph.Loops
import Mathlib.Algebra.BigOperators.Group.Finset.Sigma
import Mathlib.Algebra.BigOperators.Ring.Finset
import Mathlib.Data.Finset.Option
import Mathlib.Tactic.Ring

/-!
# Examining a graph

The holders carried along by the walk that looks for lifetime defects are nodes of the graph, so
there are finitely many places for it to look at. The main statement is that a consistent graph
that knows its table is always examined to the end.
-/

namespace Injector

/-- Whether what holds the instances below a place are nodes of a graph. -/
structure Capture.HeldIn (c : Capture) (g : Graph) : Prop where
  /-- The singleton is. -/
  singletonHolder_mem : ∀ n ∈ c.singletonHolder, n ∈ g.nodes.taken
  /-- The scoped instance is. -/
  scopedHolder_mem : ∀ n ∈ c.scopedHolder, n ∈ g.nodes.taken

theorem Capture.heldIn_free (g : Graph) : Capture.free.HeldIn g :=
  ⟨fun _ h => (nomatch h), fun _ h => (nomatch h)⟩

theorem Capture.HeldIn.below {c : Capture} {g : Graph} (h : c.HeldIn g) {n : NodeId}
    (hn : n ∈ g.nodes.taken) (lifetime : Lifetime) : (c.below n lifetime).HeldIn g := by
  unfold Capture.below
  split
  · refine ⟨fun m hm => ?_, h.scopedHolder_mem⟩
    cases hm
    exact hn
  · refine ⟨h.singletonHolder_mem, fun m hm => ?_⟩
    cases hm
    exact hn
  · exact h

namespace Graph

variable {g : Graph}

/-- What can hold the instances below a place of the graph. -/
def captures (g : Graph) : Finset Capture :=
  (g.places.insertNone ×ˢ g.places.insertNone ×ˢ Finset.univ).image fun c =>
    ⟨c.1, c.2.1, c.2.2⟩

theorem mem_captures {c : Capture} (h : c.HeldIn g) : c ∈ g.captures := by
  refine Finset.mem_image.mpr ⟨(c.singletonHolder, c.scopedHolder, c.fromStaticRoot), ?_, rfl⟩
  simp only [Finset.mem_product, Finset.mem_insertNone, mem_places, Finset.mem_univ, and_true]
  exact ⟨h.singletonHolder_mem, h.scopedHolder_mem⟩

theorem Consistent.card_captures_le (h : g.Consistent) :
    g.captures.card ≤ 2 * (g.nodes.size + 1) * (g.nodes.size + 1) := by
  refine Finset.card_image_le.trans (le_of_eq ?_)
  simp only [Finset.card_product, Finset.card_insertNone, h.card_places, Finset.card_univ,
    Fintype.card_bool]
  ring

/-- The edges of all places under all captures are no more than the steps of a walk. -/
theorem Consistent.sum_captures_le (h : g.Consistent) :
    ∑ p ∈ g.places ×ˢ g.captures, (g.outgoing p.1).length + 1 ≤ g.walkSteps := by
  rw [Finset.sum_product_right, Finset.sum_const_nat fun _ _ => h.sum_outgoing, walkSteps]
  exact Nat.succ_le_succ (Nat.mul_le_mul_right _ h.card_captures_le)

theorem instanceRequirement_ok {table : Table} (h : g.Consistent) (hk : g.Knows table)
    {n : NodeId} {node : Node} (hn : g.node n = .ok node) :
    ∃ requirement, instanceRequirement table node = .ok requirement := by
  unfold instanceRequirement
  split
  · exact ⟨_, rfl⟩
  · split
    · next id s c ho =>
      have hlt := hk _ (mem_entries_of_node h hn) id s c ho
      rw [List.getElem?_eq_getElem hlt]
      simp only
      split <;> exact ⟨_, rfl⟩
    · exact ⟨_, rfl⟩

theorem defectsAt_ok {table : Table} (h : g.Consistent) (hk : g.Knows table)
    (root : Table.Root) {n : NodeId} {node : Node} (hn : g.node n = .ok node) {c : Capture}
    (hc : c.HeldIn g) : ∃ issues, g.defectsAt table root node c = .ok issues := by
  obtain ⟨requirement, hrequirement⟩ := instanceRequirement_ok h hk hn
  have hholder : ∀ m, c.singletonHolder = some m ∨ c.scopedHolder = some m →
      ∃ holder, g.node m = .ok holder := by
    rintro m (hm | hm)
    · exact node_ok (hc.singletonHolder_mem m hm)
    · exact node_ok (hc.scopedHolder_mem m hm)
  choose! holder hholder using hholder
  unfold defectsAt
  cases hs : c.singletonHolder <;> cases ho : c.scopedHolder <;> cases node.lifetime <;>
    cases c.fromStaticRoot <;> cases requirement <;>
    simp [hholder, hs, ho, hrequirement, bind, Except.bind, pure, Except.pure]

/-- Whether looking at a place makes a walk look at another: the place of a dependency, below what
holds it then. -/
def Leads (g : Graph) (p q : NodeId × Capture) : Prop :=
  ∃ node, g.node p.1 = .ok node ∧ ∃ e ∈ g.dependencies p.1,
    q = (e.target, if e.timing = .eager then p.2.below p.1 node.lifetime else .free)

/-- What is wrong at a place. -/
def defectsOf (g : Graph) (table : Table) (root : Table.Root) (p : NodeId × Capture) :
    Except Fault (List Issue) := do
  g.defectsAt table root (← g.node p.1) p.2

/-- Whether a walk looks at exactly the places that those that wait lead to, but for those that it
looked at before. -/
structure Looked (g : Graph) (seen waiting places : List (NodeId × Capture)) : Prop where
  /-- What is looked at was led to. -/
  reached : ∀ p ∈ places, ∃ w ∈ waiting, Relation.ReflTransGen g.Leads w p
  /-- What waits is looked at. -/
  waiting : ∀ w ∈ waiting, w ∈ seen ++ places
  /-- What is led to is looked at. -/
  closed : ∀ p ∈ places, ∀ q, g.Leads p q → q ∈ seen ++ places

/-- Whether a place is a node below nodes of a graph. -/
private def Placed (g : Graph) (p : NodeId × Capture) : Prop :=
  p.1 ∈ g.nodes.taken ∧ p.2.HeldIn g

/-- The places that are looked at next. -/
private def nextPlaces (g : Graph) (n : NodeId) (c : Capture) (lifetime : Lifetime) :
    List (NodeId × Capture) :=
  (g.dependencies n).map fun e =>
    (e.target, if e.timing = .eager then c.below n lifetime else .free)

private theorem leads_iff {n : NodeId} {c : Capture} {node : Node} (hn : g.node n = .ok node)
    {q : NodeId × Capture} : g.Leads (n, c) q ↔ q ∈ g.nextPlaces n c node.lifetime := by
  simp [Leads, nextPlaces, hn, eq_comm]

private theorem placed_of_mem_nextPlaces (h : g.Consistent) {n : NodeId} (hn : n ∈ g.nodes.taken)
    {c : Capture} (hc : c.HeldIn g) (lifetime : Lifetime) :
    ∀ p ∈ g.nextPlaces n c lifetime, g.Placed p := by
  intro p hp
  obtain ⟨e, he, rfl⟩ := List.mem_map.mp hp
  refine ⟨h.target_of_dependency he, ?_⟩
  simp only
  split
  · exact hc.below hn lifetime
  · exact Capture.heldIn_free g

/-- What is looked at next is among the places looked at. -/
private theorem Looked.expand {n : NodeId} {c : Capture} {node : Node} (hn : g.node n = .ok node)
    {seen waiting places : List (NodeId × Capture)}
    (h : g.Looked ((n, c) :: seen) (g.nextPlaces n c node.lifetime ++ waiting) places) :
    g.Looked seen ((n, c) :: waiting) ((n, c) :: places) := by
  have hmove : ∀ q, q ∈ (n, c) :: seen ++ places → q ∈ seen ++ (n, c) :: places :=
    fun q hq => List.perm_middle.symm.mem_iff.mp hq
  refine ⟨?_, ?_, ?_⟩
  · refine List.forall_mem_cons.mpr ⟨⟨_, List.mem_cons_self, .refl⟩, fun p hp => ?_⟩
    obtain ⟨w, hw, hreach⟩ := h.reached p hp
    rcases List.mem_append.mp hw with hw | hw
    · exact ⟨_, List.mem_cons_self, .head ((leads_iff hn).mpr hw) hreach⟩
    · exact ⟨w, List.mem_cons_of_mem _ hw, hreach⟩
  · refine List.forall_mem_cons.mpr ⟨by simp, fun w hw => ?_⟩
    exact hmove w (h.waiting w (List.mem_append_right _ hw))
  · refine List.forall_mem_cons.mpr ⟨fun q hq => ?_, fun p hp q hq => hmove q (h.closed p hp q hq)⟩
    exact hmove q (h.waiting q (List.mem_append_left _ ((leads_iff hn).mp hq)))

/-- A walk tells what is wrong at each place that it looks at. -/
private theorem walkDefects_eq (h : g.Consistent) (table : Table) (root : Table.Root) {fuel : Nat}
    {seen waiting : List (NodeId × Capture)} (hplaced : ∀ p ∈ waiting, g.Placed p)
    (hfuel : waiting.length +
      unspent (fun p => (g.outgoing p.1).length) (g.places ×ˢ g.captures) seen ≤ fuel) :
    ∃ places, g.Looked seen waiting places ∧ (∀ p ∈ places, g.Placed p) ∧
      g.walkDefects table root fuel seen waiting =
        (places.mapM (g.defectsOf table root)).map List.flatten := by
  induction fuel generalizing seen waiting with
  | zero =>
    cases waiting with
    | nil => exact ⟨[], ⟨by simp, by simp, by simp⟩, by simp, by simp [walkDefects]; rfl⟩
    | cons p rest => simp at hfuel
  | succ fuel ih =>
    cases waiting with
    | nil => exact ⟨[], ⟨by simp, by simp, by simp⟩, by simp, by simp [walkDefects]; rfl⟩
    | cons p rest =>
      obtain ⟨n, c⟩ := p
      obtain ⟨hp, hrest⟩ := List.forall_mem_cons.mp hplaced
      rw [List.length_cons] at hfuel
      by_cases hin : (n, c) ∈ seen
      · have hless : rest.length + unspent (fun p => (g.outgoing p.1).length)
            (g.places ×ˢ g.captures) seen ≤ fuel := by omega
        obtain ⟨places, hlooked, htaken, heq⟩ := ih hrest hless
        refine ⟨places, ⟨fun p hp => ?_, ?_, hlooked.closed⟩, htaken, ?_⟩
        · obtain ⟨w, hw, hreach⟩ := hlooked.reached p hp
          exact ⟨w, List.mem_cons_of_mem _ hw, hreach⟩
        · exact List.forall_mem_cons.mpr ⟨List.mem_append_left _ hin, hlooked.waiting⟩
        · rw [walkDefects, if_pos hin, heq]
      · obtain ⟨node, hnode⟩ := node_ok hp.1
        have hspend := unspent_cons (fun p : NodeId × Capture => (g.outgoing p.1).length)
          (Finset.mem_product.mpr ⟨mem_places.mpr hp.1, mem_captures hp.2⟩) hin
        have hnext : ∀ p ∈ g.nextPlaces n c node.lifetime ++ rest, g.Placed p :=
          List.forall_mem_append.mpr ⟨placed_of_mem_nextPlaces h hp.1 hp.2 node.lifetime, hrest⟩
        have hless : (g.nextPlaces n c node.lifetime ++ rest).length +
            unspent (fun p => (g.outgoing p.1).length) (g.places ×ˢ g.captures)
              ((n, c) :: seen) ≤ fuel := by
          rw [List.length_append, nextPlaces, List.length_map, length_dependencies]
          simp only at hspend
          omega
        obtain ⟨places, hlooked, htaken, heq⟩ := ih hnext hless
        refine ⟨(n, c) :: places, hlooked.expand hnode, List.forall_mem_cons.mpr ⟨hp, htaken⟩, ?_⟩
        simp only [nextPlaces] at heq
        simp only [walkDefects, if_neg hin, hnode, heq, List.mapM_cons, defectsOf, bind,
          Except.bind]
        cases g.defectsAt table root node c with
        | error e => rfl
        | ok here => cases places.mapM (g.defectsOf table root) <;> rfl

/-- What holds the dependencies of the root. -/
def rootCapture (root : Table.Root) : Capture :=
  { Capture.free with fromStaticRoot := root.kind == .static }

/-- The walk from the root tells what is wrong at each place that the root leads to. -/
theorem Consistent.walkDefects_root (h : g.Consistent) (table : Table) (root : Table.Root)
    {start : NodeId} (hroot : g.root = some start) :
    ∃ places : List (NodeId × Capture),
      (∀ p, p ∈ places ↔ Relation.ReflTransGen g.Leads (start, rootCapture root) p) ∧
      (∀ p ∈ places, p.1 ∈ g.nodes.taken ∧ p.2.HeldIn g) ∧
      g.walkDefects table root g.walkSteps [] [(start, rootCapture root)] =
        (places.mapM (g.defectsOf table root)).map List.flatten := by
  have hplaced : ∀ p ∈ [(start, rootCapture root)], g.Placed p :=
    List.forall_mem_singleton.mpr
      ⟨h.root_mem start hroot, fun _ h => (nomatch h), fun _ h => (nomatch h)⟩
  have hfuel : [(start, rootCapture root)].length +
      unspent (fun p => (g.outgoing p.1).length) (g.places ×ˢ g.captures) [] ≤ g.walkSteps := by
    have hsteps := h.sum_captures_le
    rw [unspent_nil, List.length_singleton]
    omega
  obtain ⟨places, hlooked, htaken, heq⟩ := walkDefects_eq h table root hplaced hfuel
  refine ⟨places, fun p => ⟨fun hp => ?_, fun hp => ?_⟩, htaken, heq⟩
  · obtain ⟨w, hw, hreach⟩ := hlooked.reached p hp
    cases List.mem_singleton.mp hw
    exact hreach
  · induction hp with
    | refl => simpa using hlooked.waiting _ List.mem_cons_self
    | tail _ hstep ih => simpa using hlooked.closed _ ih _ hstep

theorem mapM_node_ok {ns : List NodeId} (h : ∀ n ∈ ns, n ∈ g.nodes.taken) :
    ∃ nodes, ns.mapM g.node = .ok nodes :=
  mapM_ok_iff.mpr fun n hn => node_ok (h n hn)

/-- A loop of nodes of the graph has an issue about it. -/
theorem loopDefect_ok {component : List NodeId} (h : ∀ n ∈ component, n ∈ g.nodes.taken) :
    ∃ issues, g.loopDefect component = .ok issues := by
  obtain ⟨nodes, hnodes⟩ := mapM_node_ok h
  simp only [loopDefect, hnodes, bind, Except.bind]
  split <;> exact ⟨_, rfl⟩

/-- A consistent graph that knows its table is examined to the end. -/
theorem Consistent.defects_ok {table : Table} (h : g.Consistent) (hk : g.Knows table)
    (root : Table.Root) : ∃ issues, g.defects table root = .ok issues := by
  unfold defects
  cases hroot : g.root with
  | none => exact ⟨[], rfl⟩
  | some start =>
    obtain ⟨places, -, hplaced, heq⟩ := h.walkDefects_root table root hroot
    have hall : ∀ p ∈ places, ∃ issues, g.defectsOf table root p = .ok issues := by
      intro p hp
      obtain ⟨hn, hc⟩ := hplaced p hp
      obtain ⟨node, hnode⟩ := node_ok hn
      obtain ⟨issues, hissues⟩ := defectsAt_ok h hk root hnode hc
      exact ⟨issues, bind_eq_ok.mpr ⟨node, hnode, hissues⟩⟩
    obtain ⟨found, hfound⟩ := mapM_ok_iff.mpr hall
    simp only [rootCapture, hfound] at heq
    simp only [heq, Except.map, bind, Except.bind]
    split
    · next component _ hloop =>
      exact loopDefect_ok (h.mem_of_mem_component (List.mem_of_find?_eq_some hloop))
    · exact ⟨_, rfl⟩

/-- A loop is told by one issue. -/
theorem loopDefect_ne_nil {component : List NodeId} {issues : List Issue}
    (hloop : g.isLoop component = true) (h : g.loopDefect component = .ok issues) :
    issues ≠ [] := by
  obtain ⟨nodes, hnodes, h⟩ := bind_eq_ok.mp h
  have hlength := (mapM_eq_ok.mp hnodes).length_eq
  cases nodes with
  | nil =>
    obtain rfl := List.length_eq_zero_iff.mp hlength
    cases hloop
  | cons first rest =>
    simp only [List.head?_cons, List.getLast?_cons] at h
    cases h
    exact List.cons_ne_nil _ _

/-- A graph of which nothing is wrong has no loop of eager dependencies. -/
theorem eagerLoop?_of_defects_nil {table : Table} {root : Table.Root} {start : NodeId}
    (hroot : g.root = some start) (h : g.defects table root = .ok []) : g.eagerLoop? = none := by
  unfold defects at h
  rw [hroot] at h
  obtain ⟨found, -, h⟩ := bind_eq_ok.mp h
  split at h
  · next component hloop =>
    exact absurd rfl (loopDefect_ne_nil (by simpa using List.find?_some hloop) h)
  · next hnone =>
    cases h
    cases hloop : g.eagerLoop? with
    | none => rfl
    | some component => exact absurd hloop (hnone component rfl)

end Graph

end Injector
