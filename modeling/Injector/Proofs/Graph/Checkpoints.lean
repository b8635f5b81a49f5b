import Injector.Proofs.Graph.Consistency

/-!
# Sequences of operations on a graph, with checkpoints

The numbers of nodes and edges are freed when a graph is taken back and are used again by what is
added afterwards, and a graph can be taken back further each time. A session is a graph together
with the graphs of which a checkpoint was taken that is not undone. Each of these graphs keeps
those before it and is kept by the present one (`Session.Sound`); every operation leaves it so, and
so does every sequence of them. The main statement is `Session.apply_rollback`: after any sequence,
taking the graph back gives exactly what was there, under the same numbers.
-/

namespace Injector

namespace Graph

/-- What can be done with a graph besides changing one of its nodes. -/
inductive Operation where
  /-- Adding a node. -/
  | addNode (node : Node)
  /-- Adding an edge. -/
  | addEdge (edge : Edge)
  /-- Opening a block. -/
  | addBlock
  /-- Making a node the root. -/
  | setRoot (n : NodeId)
  /-- Taking a checkpoint. -/
  | checkpoint
  /-- Going back to a checkpoint: the one with so many taken after it that are not undone. -/
  | rollback (later : Nat)
  deriving DecidableEq, Repr

/-- A graph with the checkpoints to which it can be taken back. -/
structure Session where
  /-- The graph. -/
  graph : Graph
  /-- What the graph was at each checkpoint that is not undone, the one taken last first. -/
  marks : List Graph
  deriving DecidableEq, Repr

namespace Session

/-- The session of which nothing is done yet. -/
def start : Session := ⟨.empty, []⟩

/-- Carries out an operation. A checkpoint to which the graph was taken back stays, and those taken
after it are undone. -/
def apply (s : Session) : Operation → Except Fault Session
  | .addNode node => .ok { s with graph := s.graph.addNode node }
  | .addEdge edge => do return { s with graph := ← s.graph.addEdge edge }
  | .addBlock => .ok { s with graph := s.graph.addBlock }
  | .setRoot n =>
    if s.graph.nodes.contains n then .ok { s with graph := s.graph.setRoot n }
    else .error (.absentNode n)
  | .checkpoint => .ok { s with marks := s.graph :: s.marks }
  | .rollback later =>
    match s.marks[later]? with
    | some saved => do return ⟨← s.graph.rollback saved.checkpoint, s.marks.drop later⟩
    | none => .error .staleCheckpoint

/-- Carries out operations one after the other. -/
def run (s : Session) (ops : List Operation) : Except Fault Session := ops.foldlM apply s

/-- Whether an operation is about what is there: edges join nodes of the graph, the root is one of
them, and a checkpoint is one that is not undone. -/
def Permits (s : Session) : Operation → Prop
  | .addNode _ | .addBlock | .checkpoint => True
  | .addEdge edge => edge.source ∈ s.graph.nodes.taken ∧ edge.target ∈ s.graph.nodes.taken
  | .setRoot n => n ∈ s.graph.nodes.taken
  | .rollback later => later < s.marks.length

/-- What holds of every session: going back in it is going down a chain of graphs, each of which
keeps the next. -/
structure Sound (s : Session) : Prop where
  /-- The graphs are consistent. -/
  consistent : ∀ g ∈ s.graph :: s.marks, g.Consistent
  /-- Whatever was there at a checkpoint is still there, below all that was added since. -/
  keeps : (s.graph :: s.marks).Pairwise fun later earlier => earlier.Keeps later

theorem sound_start : start.Sound :=
  ⟨List.forall_mem_singleton.mpr consistent_empty, List.pairwise_singleton _ _⟩

namespace Sound

variable {s : Session}

theorem graph_consistent (h : s.Sound) : s.graph.Consistent := h.consistent _ List.mem_cons_self

/-- A session whose graph only grew is sound. -/
theorem of_keeps (h : s.Sound) {g : Graph} (hg : g.Consistent) (hkeeps : s.graph.Keeps g) :
    Sound ⟨g, s.marks⟩ := by
  obtain ⟨hmarks, hrest⟩ := List.pairwise_cons.mp h.keeps
  exact ⟨List.forall_mem_cons.mpr ⟨hg, fun saved hs => h.consistent saved (.tail _ hs)⟩,
    List.pairwise_cons.mpr ⟨fun saved hs => (hmarks saved hs).trans hkeeps, hrest⟩⟩

theorem checkpoint (h : s.Sound) : Sound ⟨s.graph, s.graph :: s.marks⟩ := by
  refine ⟨List.forall_mem_cons.mpr ⟨h.graph_consistent, h.consistent⟩,
    List.pairwise_cons.mpr ⟨fun saved hs => ?_, h.keeps⟩⟩
  rcases List.mem_cons.mp hs with rfl | hs
  · exact .refl _
  · exact (List.pairwise_cons.mp h.keeps).1 saved hs

/-- Going back to a checkpoint drops those taken after it. -/
theorem back_to (h : s.Sound) {later : Nat} {saved : Graph} (hm : s.marks[later]? = some saved) :
    Sound ⟨saved, s.marks.drop (later + 1)⟩ := by
  obtain ⟨hlt, hsaved⟩ := List.getElem?_eq_some_iff.mp hm
  have hdrop : saved :: s.marks.drop (later + 1) = s.marks.drop later := by
    rw [← hsaved, ← List.drop_eq_getElem_cons hlt]
  have hsub : (saved :: s.marks.drop (later + 1)).Sublist (s.graph :: s.marks) := by
    rw [hdrop]
    exact (List.drop_sublist later s.marks).trans (List.sublist_cons_self _ _)
  exact ⟨fun g hg => h.consistent g (hsub.subset hg), h.keeps.sublist hsub⟩

/-- The graph of a sound session can be taken back to each of its checkpoints. -/
theorem exists_rollback (h : s.Sound) {saved : Graph} (hs : saved ∈ s.marks) :
    ∃ g, s.graph.rollback saved.checkpoint = .ok g ∧ g.Consistent ∧
      g.nodes.entries = saved.nodes.entries ∧ g.edges.entries = saved.edges.entries ∧
      g.root = s.graph.root.filter (· ∈ saved.nodes.taken) ∧ g.blocks = s.graph.blocks := by
  obtain ⟨hmarks, -⟩ := List.pairwise_cons.mp h.keeps
  obtain ⟨g, hg, hc, hn, he, hr, hb, -⟩ :=
    (hmarks saved hs).rollback (h.consistent saved (.tail _ hs)) h.graph_consistent
  exact ⟨g, hg, hc, hn, he, hr, hb⟩

/-- Each operation keeps a session sound. -/
theorem apply (h : s.Sound) {op : Operation} {s' : Session} (hop : s.apply op = .ok s') :
    s'.Sound := by
  cases op with
  | addNode node =>
    cases hop
    exact h.of_keeps (h.graph_consistent.addNode node) (extends_addNode _ node).keeps
  | addEdge edge =>
    obtain ⟨g, hg, hop⟩ := bind_eq_ok.mp hop
    cases hop
    exact h.of_keeps (h.graph_consistent.addEdge hg) (extends_addEdge hg).keeps
  | addBlock =>
    cases hop
    exact h.of_keeps h.graph_consistent.addBlock (extends_addBlock _).keeps
  | setRoot n =>
    simp only [Session.apply] at hop
    split at hop
    · rename_i hn
      cases hop
      have hc := h.graph_consistent
      refine h.of_keeps ⟨hc.nodes, hc.edges, hc.nodeLog, hc.edgeLog, hc.source_mem, hc.target_mem,
        fun m hm => ?_⟩ ⟨List.suffix_refl _, List.suffix_refl _⟩
      cases hm
      exact Pool.contains_iff.mp hn
    · cases hop
  | checkpoint =>
    cases hop
    exact h.checkpoint
  | rollback later =>
    simp only [Session.apply] at hop
    split at hop
    · rename_i saved hm
      obtain ⟨hlt, hsaved⟩ := List.getElem?_eq_some_iff.mp hm
      obtain ⟨g, hg, hop⟩ := bind_eq_ok.mp hop
      cases hop
      obtain ⟨g', hg', hc, hn, he, -⟩ := h.exists_rollback (List.mem_of_getElem? hm)
      cases hg.symm.trans hg'
      have hback := (h.back_to hm).checkpoint.of_keeps hc
        ⟨hn ▸ List.suffix_refl _, he ▸ List.suffix_refl _⟩
      rw [List.drop_eq_getElem_cons hlt, hsaved]
      exact hback
    · cases hop

/-- Every sequence of operations keeps a session sound. -/
theorem run (h : s.Sound) {ops : List Operation} {s' : Session} (hrun : s.run ops = .ok s') :
    s'.Sound := by
  induction ops generalizing s with
  | nil =>
    cases hrun
    exact h
  | cons op rest ih =>
    rw [Session.run, List.foldlM_cons] at hrun
    obtain ⟨t, hop, hrest⟩ := bind_eq_ok.mp hrun
    exact ih (h.apply hop) hrest

/-- In a sound session exactly the operations on what is there can be carried out. -/
theorem apply_ok_iff (h : s.Sound) {op : Operation} :
    (∃ s', s.apply op = .ok s') ↔ s.Permits op := by
  cases op with
  | addNode node => exact ⟨fun _ => trivial, fun _ => ⟨_, rfl⟩⟩
  | addBlock => exact ⟨fun _ => trivial, fun _ => ⟨_, rfl⟩⟩
  | checkpoint => exact ⟨fun _ => trivial, fun _ => ⟨_, rfl⟩⟩
  | addEdge edge =>
    constructor
    · rintro ⟨s', hop⟩
      obtain ⟨g, hg, -⟩ := bind_eq_ok.mp hop
      obtain ⟨hsource, htarget, -⟩ := addEdge_eq_ok hg
      exact ⟨hsource, htarget⟩
    · rintro ⟨hsource, htarget⟩
      obtain ⟨g, hg⟩ := addEdge_ok hsource htarget
      exact ⟨_, bind_eq_ok.mpr ⟨g, hg, rfl⟩⟩
  | setRoot n =>
    simp only [Session.apply, Permits, ← Pool.contains_iff]
    split <;> simp_all
  | rollback later =>
    constructor
    · rintro ⟨s', hop⟩
      simp only [Session.apply] at hop
      split at hop
      · exact (List.getElem?_eq_some_iff.mp ‹_›).1
      · cases hop
    · intro hlt
      obtain ⟨g, hg, -⟩ := h.exists_rollback (List.getElem_mem hlt)
      simp only [Session.apply, List.getElem?_eq_getElem hlt]
      exact ⟨_, bind_eq_ok.mpr ⟨g, hg, rfl⟩⟩

end Sound

/-- Whether a graph that was taken back is what it was at a checkpoint: what was added since is
gone, and what was there is there under its number. -/
structure Restores (saved current back : Graph) : Prop where
  /-- The nodes are those of the checkpoint. -/
  node : ∀ n, back.nodes.get? n = saved.nodes.get? n
  /-- The edges are those of the checkpoint. -/
  edge : ∀ k, back.edges.get? k = saved.edges.get? k
  /-- Each node depends on what it depended on, in the same order. -/
  dependencies : ∀ n, back.dependencies n = saved.dependencies n
  /-- The root stays exactly if its node does. -/
  root : ∀ n, back.root = some n ↔ current.root = some n ∧ n ∈ back.nodes.taken
  /-- Blocks stay open. -/
  blocks : back.blocks = current.blocks

/-- After any sequence of operations, all operations on what is there can be carried out, and going
back to a checkpoint that is not undone restores the graph of which it was taken. -/
theorem apply_rollback {ops : List Operation} {s : Session} (h : start.run ops = .ok s) :
    (∀ op, s.Permits op → ∃ s', s.apply op = .ok s') ∧
      ∀ later saved, s.marks[later]? = some saved →
        ∃ back, s.apply (.rollback later) = .ok ⟨back, s.marks.drop later⟩ ∧
          Restores saved s.graph back := by
  have hsound := sound_start.run h
  refine ⟨fun op => hsound.apply_ok_iff.mpr, fun later saved hm => ?_⟩
  obtain ⟨back, hback, -, hn, he, hr, hb⟩ := hsound.exists_rollback (List.mem_of_getElem? hm)
  refine ⟨back, ?_, ?_, ?_, ?_, ?_, hb⟩
  · simp only [Session.apply, hm]
    exact bind_eq_ok.mpr ⟨back, hback, rfl⟩
  · exact fun n => congrArg (List.lookup n) hn
  · exact fun k => congrArg (List.lookup k) he
  · exact fun n => by rw [Graph.dependencies, Graph.dependencies, outgoing, outgoing, he]
  · intro n
    rw [hr, Pool.taken_congr hn, Option.filter_eq_some_iff, decide_eq_true_iff]

/-- Two nested checkpoints. The number freed by going back to the second is used again, for a node
that becomes the root. -/
def nested : List Operation :=
  let node (label : String) : Node := { (default : Node) with label }
  let edge (source target : NodeId) : Edge := { (default : Edge) with source, target }
  [.addNode (node "A"), .checkpoint, .addNode (node "B"), .addEdge (edge 0 1), .setRoot 0,
    .checkpoint, .addNode (node "C"), .addEdge (edge 1 2), .rollback 0, .addNode (node "D"),
    .addEdge (edge 0 2), .setRoot 2]

/-- Going back to the first of the two checkpoints takes the node with the number used again away
and unsets the root. -/
theorem apply_rollback_nested : ∃ s saved back, start.run nested = .ok s ∧
    s.Permits (.rollback 1) ∧ s.graph.root = some 2 ∧ s.marks[1]? = some saved ∧
    s.apply (.rollback 1) = .ok ⟨back, s.marks.drop 1⟩ ∧ Restores saved s.graph back ∧
    back.nodes.taken = [0] ∧ back.root = none := by
  have hrun : ((start.run nested).toOption.any fun s => s.graph.root = some 2 ∧
      (s.apply (.rollback 1)).toOption.any fun t =>
        t.graph.nodes.taken = [0] ∧ t.graph.root = none) = true := by decide +kernel
  obtain ⟨s, hs, hfacts⟩ := (Option.any_eq_true _ _).mp hrun
  obtain ⟨hroot, hfacts⟩ := of_decide_eq_true hfacts
  obtain ⟨t, ht, hfacts⟩ := (Option.any_eq_true _ _).mp hfacts
  obtain ⟨htaken, hunset⟩ := of_decide_eq_true hfacts
  have hs := toOption_eq_some.mp hs
  have ht := toOption_eq_some.mp ht
  have hpermits := (sound_start.run hs).apply_ok_iff.mp ⟨t, ht⟩
  have hm := List.getElem?_eq_getElem hpermits
  obtain ⟨back, hback, hrestores⟩ := (apply_rollback hs).2 1 _ hm
  cases ht.symm.trans hback
  exact ⟨s, _, back, hs, hpermits, hroot, hm, hback, hrestores, htaken, hunset⟩

end Session

end Graph

end Injector
