import Injector.Graph.Tree
import Injector.Proofs.Graph.Consistency
import Mathlib.Algebra.BigOperators.Group.Finset.Piecewise
import Mathlib.Algebra.Order.BigOperators.Group.Finset
import Mathlib.Data.Finset.Dedup

/-!
# Walks that expand every place once

A walk takes places off a list, skips those that it expanded before, and puts one place for each
edge in front when it expands a place. The edges of the places that are not expanded yet bound the
steps that are left. The main statement is that the tree of a consistent graph is always found.
-/

namespace Injector

/-- The weight of all places but those expanded. -/
def unspent {α : Type} [DecidableEq α] (weight : α → Nat) (all : Finset α) (expanded : List α) :
    Nat :=
  ∑ a ∈ all with a ∉ expanded, weight a

/-- Expanding a place spends its weight. -/
theorem unspent_cons {α : Type} [DecidableEq α] (weight : α → Nat) {all : Finset α} {a : α}
    {expanded : List α} (ha : a ∈ all) (hnew : a ∉ expanded) :
    unspent weight all expanded = weight a + unspent weight all (a :: expanded) := by
  have herase : (all.filter fun b => b ∉ a :: expanded) =
      (all.filter fun b => b ∉ expanded).erase a := by
    ext b
    simp only [Finset.mem_filter, Finset.mem_erase, List.mem_cons, not_or]
    tauto
  have hmem : a ∈ all.filter fun b => b ∉ expanded := Finset.mem_filter.mpr ⟨ha, hnew⟩
  rw [unspent, unspent, herase, Finset.add_sum_erase _ _ hmem]

/-- Before anything was expanded all weighs. -/
theorem unspent_nil {α : Type} [DecidableEq α] (weight : α → Nat) (all : Finset α) :
    unspent weight all [] = ∑ a ∈ all, weight a := by
  simp [unspent]

/-- Nothing weighs more than all does. -/
theorem unspent_le_sum {α : Type} [DecidableEq α] (weight : α → Nat) (all : Finset α)
    (expanded : List α) : unspent weight all expanded ≤ ∑ a ∈ all, weight a :=
  Finset.sum_le_sum_of_subset (Finset.filter_subset _ _)

/-- What was expanded since weighs nothing any more. -/
theorem unspent_le_of_subset {α : Type} [DecidableEq α] (weight : α → Nat) (all : Finset α)
    {expanded more : List α} (h : ∀ a ∈ expanded, a ∈ more) :
    unspent weight all more ≤ unspent weight all expanded :=
  Finset.sum_le_sum_of_subset
    (Finset.monotone_filter_right all fun a _ ha hmem => ha (h a hmem))

/-- Things counted by where they belong are all counted, when each belongs somewhere. -/
theorem sum_length_filter {α β : Type} [DecidableEq β] (place : α → β) {all : Finset β}
    {as : List α} (h : ∀ a ∈ as, place a ∈ all) :
    ∑ b ∈ all, (as.filter fun a => place a == b).length = as.length := by
  induction as with
  | nil => simp
  | cons a rest ih =>
    obtain ⟨ha, hrest⟩ := List.forall_mem_cons.mp h
    have hone : ∑ b ∈ all, (if place a = b then 1 else 0) = 1 := by simp [ha]
    have hcons : ∀ b, ((a :: rest).filter fun a => place a == b).length =
        (rest.filter fun a => place a == b).length + if place a = b then 1 else 0 := by
      intro b
      by_cases hb : place a = b <;> simp [hb]
    simp only [hcons, Finset.sum_add_distrib, ih hrest, hone, List.length_cons]

namespace Graph

variable {g : Graph}

@[simp] theorem length_dependencies (g : Graph) (n : NodeId) :
    (g.dependencies n).length = (g.outgoing n).length := by
  rw [dependencies, sortOn, (sortBy_perm _ _).length_eq, List.length_map]

/-- The dependencies of a node are its edges. -/
theorem mem_dependencies {n : NodeId} {e : Edge} :
    e ∈ g.dependencies n ↔ ∃ i, (i, e) ∈ g.edges.entries ∧ e.source = n := by
  simp [dependencies, sortOn, outgoing]

/-- The nodes of a graph. -/
def places (g : Graph) : Finset NodeId := g.nodes.taken.toFinset

/-- The places of a graph are its nodes in use. -/
@[simp] theorem mem_places {n : NodeId} : n ∈ g.places ↔ n ∈ g.nodes.taken := by
  simp [places]

/-- A graph has as many places as nodes. -/
theorem Consistent.card_places (h : g.Consistent) : g.places.card = g.nodes.size := by
  rw [places, List.toFinset_card_of_nodup h.nodes.nodup_taken, Pool.taken, List.length_map]
  rfl

/-- Each edge leaves one node. -/
theorem Consistent.sum_outgoing (h : g.Consistent) :
    ∑ n ∈ g.places, (g.outgoing n).length = g.edges.size :=
  sum_length_filter (fun e => e.2.source) fun e he => mem_places.mpr (h.source_mem e he)

/-- What a node depends on is in use. -/
theorem Consistent.target_of_dependency (h : g.Consistent) {n : NodeId} {e : Edge}
    (he : e ∈ g.dependencies n) : e.target ∈ g.nodes.taken := by
  obtain ⟨i, hi, -⟩ := mem_dependencies.mp he
  exact h.target_mem _ hi

/-- A node in use has a content. -/
theorem node_ok {n : NodeId} (h : n ∈ g.nodes.taken) : ∃ node, g.node n = .ok node := by
  obtain ⟨node, hn⟩ := Option.isSome_iff_exists.mp (Pool.get?_isSome_iff.mpr h)
  exact ⟨node, by simp [Graph.node, hn]⟩

/-- The content of a node is what its pool has for it. -/
theorem get?_of_node {n : NodeId} {node : Node} (hn : g.node n = .ok node) :
    g.nodes.get? n = some node := by
  unfold Graph.node at hn
  split at hn
  · next node' hget =>
    cases hn
    exact hget
  · cases hn

/-- A node and its content are an entry. -/
theorem mem_entries_of_node (h : g.Consistent) {n : NodeId} {node : Node}
    (hn : g.node n = .ok node) : (n, node) ∈ g.nodes.entries :=
  h.nodes.get?_eq_some_iff.mp (get?_of_node hn)

/-- The lines of a tree are written for what is in use, one at a time, if there are steps for all
that waits and for what it has not expanded. -/
private theorem treeLines_ok (h : g.Consistent) {fuel : Nat} {listed : List NodeId}
    {waiting : List TreeEntry} (hlive : ∀ e ∈ waiting, e.id ∈ g.nodes.taken)
    (hfuel : waiting.length + unspent (fun n => (g.outgoing n).length) g.places listed ≤ fuel) :
    ∃ lines, g.treeLines fuel listed waiting = .ok lines := by
  induction fuel generalizing listed waiting with
  | zero =>
    cases waiting with
    | nil => exact ⟨[], by simp [treeLines]⟩
    | cons e rest => simp at hfuel
  | succ fuel ih =>
    cases waiting with
    | nil => exact ⟨[], by simp [treeLines]⟩
    | cons e rest =>
      obtain ⟨he, hrest⟩ := List.forall_mem_cons.mp hlive
      obtain ⟨node, hnode⟩ := node_ok he
      rw [List.length_cons] at hfuel
      by_cases hin : e.id ∈ listed
      · have hless : rest.length + unspent (fun n => (g.outgoing n).length) g.places listed ≤
            fuel := by omega
        obtain ⟨lines, hlines⟩ := ih hrest hless
        simp [treeLines, hnode, hin, hlines, bind, Except.bind, pure, Except.pure]
      · have hspend := unspent_cons (fun n => (g.outgoing n).length) (mem_places.mpr he) hin
        let below := (g.dependencies e.id).map fun edge =>
          (⟨e.depth + 1, some edge.timing, edge.target⟩ : TreeEntry)
        have hbelow : ∀ f ∈ below ++ rest, f.id ∈ g.nodes.taken := by
          intro f hf
          rcases List.mem_append.mp hf with hf | hf
          · obtain ⟨edge, hedge, rfl⟩ := List.mem_map.mp hf
            exact h.target_of_dependency hedge
          · exact hrest f hf
        have hless : (below ++ rest).length +
            unspent (fun n => (g.outgoing n).length) g.places (e.id :: listed) ≤ fuel := by
          rw [List.length_append, List.length_map, length_dependencies]
          omega
        obtain ⟨lines, hlines⟩ := ih hbelow hless
        simp only [below] at hlines
        simp [treeLines, hnode, hin, hlines, bind, Except.bind, pure, Except.pure]

/-- The tree of a consistent graph is found. -/
theorem Consistent.treeText_ok (h : g.Consistent) : ∃ text, g.treeText = .ok text := by
  have hlines : ∃ lines, g.tree = .ok lines := by
    refine treeLines_ok h ?_ ?_
    · intro e he
      obtain ⟨n, hn, rfl⟩ := List.mem_map.mp he
      exact h.root_mem n (Option.mem_toList.mp hn)
    · rw [unspent_nil, h.sum_outgoing]
      cases g.root with
      | none => simp
      | some n =>
        simp only [Option.toList_some, List.map_cons, List.map_nil, List.length_singleton]
        omega
  obtain ⟨lines, hlines⟩ := hlines
  simp [treeText, hlines, bind, Except.bind, pure, Except.pure]

end Graph

end Injector
