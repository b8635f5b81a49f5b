import Injector.Proofs.Graph.Consistency
import Mathlib.Logic.Relator
import Mathlib.Order.Basic

/-!
# Graphs that correspond

Two graphs correspond where they have the same nodes under the same numbers and the same edges, up
to the names of blocks: a block that was opened for what is taken back is never opened again, so
that the blocks opened afterwards get other names. The main statements are that graphs which
correspond have the same numbers in use, and that what is added to both keeps the correspondence.
-/

namespace Injector

/-- Which blocks of two builds stand for each other. -/
abbrev Pairing : Type := BlockId → BlockId → Prop

/-- Whether values come from the same place. -/
inductive Origin.Corresponds (pairs : Pairing) : Origin → Origin → Prop
  /-- They are made for one binding, in one way. -/
  | binding (id : BindingId) (s : Substitution) (constructor : Option Nat) :
      Corresponds pairs (.binding id s constructor) (.binding id s constructor)
  /-- They have one shape. -/
  | synthesized (strategy : Strategy) (providerArgs : List TypeExpr) :
      Corresponds pairs (.synthesized strategy providerArgs) (.synthesized strategy providerArgs)
  /-- They are one argument of calls that stand for each other. -/
  | argument {block block' : BlockId} (index : Nat) (opened : pairs block block') :
      Corresponds pairs (.argument block index) (.argument block' index)

/-- Whether nodes differ at most in the names of blocks. -/
structure Node.Corresponds (pairs : Pairing) (node node' : Node) : Prop where
  /-- They are made in blocks that stand for each other. -/
  block : pairs node.block node'.block
  /-- They come from the same place. -/
  origin : node.origin.Corresponds pairs node'.origin
  /-- All else is the same. -/
  rest : { node with block := node'.block, origin := node'.origin } = node'

/-- Whether graphs differ at most in the names of blocks and the numbers of edges. -/
structure Graph.Corresponds (pairs : Pairing) (g g' : Graph) : Prop where
  /-- They have the same nodes under the same numbers. -/
  nodes : List.Forall₂ (fun e e' => e.1 = e'.1 ∧ e.2.Corresponds pairs e'.2) g.nodes.entries
    g'.nodes.entries
  /-- They have the same edges. -/
  edges : g.edges.entries.map Prod.snd = g'.edges.entries.map Prod.snd
  /-- They have the same root. -/
  root : g.root = g'.root

variable {pairs pairs' : Pairing}

/-- The pairing in which two blocks stand for each other besides those that do already. -/
def paired (pairs : Pairing) (block block' : BlockId) : Pairing :=
  fun b b' => pairs b b' ∨ b = block ∧ b' = block'

theorem le_paired (pairs : Pairing) (block block' : BlockId) :
    pairs ≤ paired pairs block block' := fun _ _ h => .inl h

/-- Blocks that were not opened yet can stand for each other. -/
theorem paired_unique (h : Relator.BiUnique pairs) {block block' : BlockId}
    (hnew : ∀ b b', pairs b b' → b < block ∧ b' < block') :
    Relator.BiUnique (paired pairs block block') := by
  constructor
  · rintro a b c (ha | ⟨rfl, rfl⟩) (hb | ⟨rfl, hc⟩)
    · exact h.1 ha hb
    · exact absurd hc (Nat.ne_of_lt (hnew _ _ ha).2)
    · exact absurd (hnew _ _ hb).2 (Nat.lt_irrefl _)
    · rfl
  · rintro a b c (hb | ⟨rfl, rfl⟩) (hc | ⟨ha, rfl⟩)
    · exact h.2 hb hc
    · exact absurd ha (Nat.ne_of_lt (hnew _ _ hb).1)
    · exact absurd (hnew _ _ hc).1 (Nat.lt_irrefl _)
    · rfl

theorem Origin.Corresponds.mono {o o' : Origin} (h : o.Corresponds pairs o')
    (hle : pairs ≤ pairs') : o.Corresponds pairs' o' := by
  cases h with
  | binding id s constructor => exact .binding id s constructor
  | synthesized strategy providerArgs => exact .synthesized strategy providerArgs
  | argument index hopened => exact .argument index (hle _ _ hopened)

theorem Node.Corresponds.mono {node node' : Node} (h : node.Corresponds pairs node')
    (hle : pairs ≤ pairs') : node.Corresponds pairs' node' :=
  ⟨hle _ _ h.block, h.origin.mono hle, h.rest⟩

theorem Graph.Corresponds.mono {g g' : Graph} (h : g.Corresponds pairs g')
    (hle : pairs ≤ pairs') : g.Corresponds pairs' g' :=
  ⟨h.nodes.imp fun _ _ he => ⟨he.1, he.2.mono hle⟩, h.edges, h.root⟩

/-- Graphs that correspond have the same numbers in use. -/
theorem Graph.Corresponds.taken_eq {g g' : Graph} (h : g.Corresponds pairs g') :
    g.nodes.taken = g'.nodes.taken := by
  have hnumbers : List.Forall₂ (· = ·) g.nodes.taken g'.nodes.taken :=
    List.rel_map (fun _ _ he => he.1) h.nodes
  rwa [List.forall₂_eq_eq_eq] at hnumbers

/-- A node just added gets the same number in graphs that correspond. -/
theorem Graph.Corresponds.nextNumber_eq {g g' : Graph} (h : g.Corresponds pairs g')
    (hstacked : g.nodes.Stacked) (hstacked' : g'.nodes.Stacked) :
    g.nodes.nextNumber = g'.nodes.nextNumber := by
  rw [hstacked.nextNumber_eq, hstacked'.nextNumber_eq, h.taken_eq]

theorem Graph.Corresponds.addNode {g g' : Graph} (h : g.Corresponds pairs g')
    (hstacked : g.nodes.Stacked) (hstacked' : g'.nodes.Stacked) {node node' : Node}
    (hnode : node.Corresponds pairs node') :
    (g.addNode node).Corresponds pairs (g'.addNode node') := by
  refine ⟨?_, h.edges, h.root⟩
  simp only [Graph.addNode, Pool.entries_add]
  exact .cons ⟨h.nextNumber_eq hstacked hstacked', hnode⟩ h.nodes

theorem Graph.Corresponds.addEdge {g g' u u' : Graph} (h : g.Corresponds pairs g') {e : Edge}
    (hu : g.addEdge e = .ok u) (hu' : g'.addEdge e = .ok u') : u.Corresponds pairs u' := by
  obtain ⟨-, -, rfl⟩ := Graph.addEdge_eq_ok hu
  obtain ⟨-, -, rfl⟩ := Graph.addEdge_eq_ok hu'
  refine ⟨h.nodes, ?_, h.root⟩
  simp only [Pool.entries_add, List.map_cons, h.edges]

/-- A change that keeps the correspondence of nodes keeps that of graphs. -/
theorem Graph.Corresponds.modifyNode {g g' u u' : Graph} (h : g.Corresponds pairs g') {n : NodeId}
    {f : Node → Node}
    (hf : ∀ node node' : Node, node.Corresponds pairs node' → (f node).Corresponds pairs (f node'))
    (hu : g.modifyNode n f = .ok u) (hu' : g'.modifyNode n f = .ok u') :
    u.Corresponds pairs u' := by
  rw [Graph.modifyNode_eq_ok hu, Graph.modifyNode_eq_ok hu']
  refine ⟨?_, h.edges, h.root⟩
  simp only [Pool.modify, List.forall₂_map_left_iff, List.forall₂_map_right_iff]
  refine h.nodes.imp fun e e' he => ?_
  rw [← he.1]
  split
  · exact ⟨rfl, hf _ _ he.2⟩
  · exact he

end Injector
