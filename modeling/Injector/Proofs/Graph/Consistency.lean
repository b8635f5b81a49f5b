import Injector.Proofs.Computation

/-!
# Consistent graphs and taking back

A graph is consistent when its pools give no number twice, its logs list what is in it, and its
edges and its root are nodes of it; it knows a table when its nodes are made for bindings of that
table. Adding keeps consistency, and taking a consistent graph back to a checkpoint leaves exactly
the nodes and edges that were there.
-/

namespace Injector

namespace Pool

variable {α : Type}

/-- The numbers in use, the one given last first. -/
def taken (p : Pool α) : List Nat := p.entries.map Prod.fst

/-- Whether no number is given twice and every number handed out lies below the fresh one. -/
structure Consistent (p : Pool α) : Prop where
  /-- No number is in use twice, free twice, or both in use and free. -/
  nodup : (p.taken ++ p.free).Nodup
  /-- A number was fresh before it was used. -/
  lt_fresh : ∀ n ∈ p.taken ++ p.free, n < p.fresh

/-- Nothing is taken in an empty pool, nor free. -/
theorem consistent_empty : (empty : Pool α).Consistent :=
  ⟨List.nodup_nil, by simp [taken, empty]⟩

/-- No number is taken twice. -/
theorem Consistent.nodup_taken {p : Pool α} (h : p.Consistent) : p.taken.Nodup :=
  (List.nodup_append.mp h.nodup).1

/-- A number stands for a thing exactly when it is in use. -/
theorem get?_isSome_iff {p : Pool α} {n : Nat} : (p.get? n).isSome ↔ n ∈ p.taken := by
  unfold get? taken
  induction p.entries with
  | nil => simp
  | cons e rest ih =>
    obtain ⟨m, a⟩ := e
    by_cases h : n = m
    · simp [h]
    · simp [List.lookup_cons, beq_false_of_ne h, h, ih]

/-- A pool contains exactly the numbers that are taken. -/
theorem contains_iff {p : Pool α} {n : Nat} : p.contains n = true ↔ n ∈ p.taken :=
  get?_isSome_iff

/-- In a consistent pool the entries are exactly the things found under their numbers. -/
theorem Consistent.get?_eq_some_iff {p : Pool α} (h : p.Consistent) {n : Nat} {a : α} :
    p.get? n = some a ↔ (n, a) ∈ p.entries := by
  have hnodup : (p.entries.map Prod.fst).Nodup := h.nodup_taken
  unfold get?
  generalize p.entries = entries at hnodup
  induction entries with
  | nil => simp
  | cons e rest ih =>
    obtain ⟨m, b⟩ := e
    obtain ⟨hm, hrest⟩ := List.nodup_cons.mp hnodup
    by_cases heq : n = m
    · subst heq
      have hnot : (n, a) ∉ rest := fun hmem => hm (List.mem_map.mpr ⟨_, hmem, rfl⟩)
      simp [hnot, eq_comm]
    · simp [List.lookup_cons, beq_false_of_ne heq, heq, ih hrest]

@[simp] theorem entries_add (p : Pool α) (a : α) :
    (p.add a).entries = (p.nextNumber, a) :: p.entries := by
  unfold add nextNumber
  cases p.free <;> rfl

@[simp] theorem taken_add (p : Pool α) (a : α) : (p.add a).taken = p.nextNumber :: p.taken := by
  simp [taken]

/-- The next number is not in use. -/
theorem Consistent.nextNumber_not_mem {p : Pool α} (h : p.Consistent) :
    p.nextNumber ∉ p.taken := by
  unfold nextNumber
  cases hf : p.free with
  | nil =>
    intro hmem
    exact absurd (h.lt_fresh _ (List.mem_append_left _ hmem)) (by simp)
  | cons n free =>
    intro hmem
    exact (List.nodup_append.mp h.nodup).2.2 n hmem n (by simp [hf]) rfl

/-- What is added to a consistent pool takes a number that is free or new. -/
theorem Consistent.add {p : Pool α} (h : p.Consistent) (a : α) : (p.add a).Consistent := by
  have hnodup := h.nodup
  have hlt := h.lt_fresh
  unfold Pool.add
  cases hf : p.free with
  | nil =>
    simp only [hf, List.append_nil] at hnodup hlt
    refine ⟨?_, ?_⟩
    · simp only [taken, List.map_cons, List.append_nil, List.nodup_cons]
      exact ⟨fun hmem => absurd (hlt _ hmem) (by simp), hnodup⟩
    · intro n hn
      simp only [taken, List.map_cons, List.append_nil, List.mem_cons] at hn
      rcases hn with rfl | hn
      · exact Nat.lt_succ_self _
      · exact Nat.lt_succ_of_lt (hlt n hn)
  | cons m free =>
    rw [hf] at hnodup hlt
    have hperm : (p.taken ++ m :: free).Perm (m :: p.taken ++ free) := List.perm_middle
    exact ⟨hperm.nodup_iff.mp hnodup, fun n hn => hlt n (hperm.mem_iff.mpr hn)⟩

/-- Erasing the thing added last leaves the others as they are. -/
theorem entries_erase_head {p : Pool α} (h : p.Consistent) {n : Nat} {a : α}
    {rest : List (Nat × α)} (he : p.entries = (n, a) :: rest) : (p.erase n).entries = rest := by
  have hnodup := h.nodup_taken
  simp only [taken, he, List.map_cons, List.nodup_cons] at hnodup
  have hin : p.contains n = true := contains_iff.mpr (by simp [taken, he])
  have hrest : ∀ e ∈ rest, (e.1 != n) = true := by
    intro e hmem
    have hne : e.1 ≠ n := fun heq => hnodup.1 (List.mem_map.mpr ⟨e, hmem, heq⟩)
    simpa using hne
  simp only [erase, hin, ↓reduceIte, he, List.filter_cons, bne_self_eq_false,
    Bool.false_eq_true]
  exact List.filter_eq_self.mpr hrest

/-- Giving back the number that was taken last leaves a pool consistent. -/
theorem Consistent.erase_head {p : Pool α} (h : p.Consistent) {n : Nat} {a : α}
    {rest : List (Nat × α)} (he : p.entries = (n, a) :: rest) : (p.erase n).Consistent := by
  have hin : p.contains n = true := contains_iff.mpr (by simp [taken, he])
  have hentries := entries_erase_head h he
  have hfree : (p.erase n).free = n :: p.free := by simp [erase, hin]
  have hfresh : (p.erase n).fresh = p.fresh := by simp [erase, hin]
  have hperm : (p.taken ++ p.free).Perm ((p.erase n).taken ++ (p.erase n).free) := by
    simp only [taken, hentries, hfree, he, List.map_cons]
    exact List.perm_middle.symm
  exact ⟨hperm.nodup_iff.mp h.nodup,
    fun m hm => hfresh ▸ h.lt_fresh m (hperm.mem_iff.mpr hm)⟩

/-- Erasing the things added last, the last one first, leaves those added before. -/
theorem Consistent.foldl_erase {p : Pool α} (h : p.Consistent) (k : Nat) :
    ((p.taken.take k).foldl erase p).Consistent ∧
      ((p.taken.take k).foldl erase p).entries = p.entries.drop k := by
  induction k generalizing p with
  | zero => exact ⟨h, rfl⟩
  | succ k ih =>
    cases he : p.entries with
    | nil => simpa [taken, he] using h
    | cons e rest =>
      obtain ⟨n, a⟩ := e
      have htaken : p.taken = n :: (p.erase n).taken := by
        simp [taken, he, entries_erase_head h he]
      obtain ⟨hc, hdrop⟩ := ih (h.erase_head he)
      rw [htaken, List.take_succ_cons, List.foldl_cons, List.drop_succ_cons]
      exact ⟨hc, by rw [hdrop, entries_erase_head h he]⟩

@[simp] theorem taken_modify (p : Pool α) (n : Nat) (f : α → α) :
    (p.modify n f).taken = p.taken := by
  simp only [taken, modify, List.map_map]
  refine List.map_congr_left fun e _ => ?_
  simp only [Function.comp_apply]
  split <;> rfl

/-- What is changed in place keeps its number. -/
theorem Consistent.modify {p : Pool α} (h : p.Consistent) (n : Nat) (f : α → α) :
    (p.modify n f).Consistent := by
  refine ⟨?_, ?_⟩ <;> rw [taken_modify]
  · exact h.nodup
  · exact h.lt_fresh

/-- Things change only under the number that is modified. -/
theorem get?_modify (p : Pool α) (n m : Nat) (f : α → α) :
    (p.modify n f).get? m = if m = n then (p.get? m).map f else p.get? m := by
  simp only [get?, modify]
  induction p.entries with
  | nil => simp
  | cons e rest ih =>
    obtain ⟨k, a⟩ := e
    by_cases hk : k = n
    · by_cases hm : m = k
      · simp [hk, hm]
      · have hmn : m ≠ n := hk ▸ hm
        simpa [hk, List.lookup_cons, beq_false_of_ne hmn, hmn] using ih
    · by_cases hm : m = k
      · simp [hm, hk]
      · simpa [hk, List.lookup_cons, beq_false_of_ne hm] using ih

/-- Whether numbers are given and freed like those of a stack: the numbers in use and then those
that are free are the numbers below the fresh one in their order. -/
def Stacked (p : Pool α) : Prop := p.taken.reverse ++ p.free = List.range p.fresh

/-- An empty pool is stacked. -/
theorem stacked_empty : (empty : Pool α).Stacked := rfl

/-- The next number of a stack is how many there are in use. -/
theorem Stacked.nextNumber_eq {p : Pool α} (h : p.Stacked) : p.nextNumber = p.taken.length := by
  unfold Stacked at h
  unfold nextNumber
  cases hf : p.free with
  | nil =>
    have hlength := congrArg List.length h
    simpa [hf] using hlength.symm
  | cons n free =>
    have hat : (p.taken.reverse ++ p.free)[p.taken.length]? = some n := by simp [hf]
    rw [h] at hat
    obtain ⟨_, hn⟩ := List.getElem?_eq_some_iff.mp hat
    simpa using hn.symm

/-- What is added to a stacked pool goes on top. -/
theorem Stacked.add {p : Pool α} (h : p.Stacked) (a : α) : (p.add a).Stacked := by
  unfold Stacked at h ⊢
  rw [taken_add]
  unfold Pool.add nextNumber
  cases hf : p.free with
  | nil =>
    rw [hf, List.append_nil] at h
    simp [h, List.range_succ]
  | cons n free =>
    rw [hf] at h
    simpa using h

/-- What is changed in place keeps its place on the stack. -/
theorem Stacked.modify {p : Pool α} (h : p.Stacked) (n : Nat) (f : α → α) :
    (p.modify n f).Stacked := by
  unfold Stacked
  rw [taken_modify]
  exact h

/-- Erasing the things added last, the last one first, keeps a stack. -/
theorem Stacked.foldl_erase {p : Pool α} (h : p.Stacked) (hp : p.Consistent) (k : Nat) :
    ((p.taken.take k).foldl erase p).Stacked := by
  induction k generalizing p with
  | zero => exact h
  | succ k ih =>
    cases he : p.entries with
    | nil => simpa [taken, he] using h
    | cons e rest =>
      obtain ⟨n, a⟩ := e
      have htaken : p.taken = n :: (p.erase n).taken := by
        simp [taken, he, entries_erase_head hp he]
      have hin : p.contains n = true := contains_iff.mpr (by simp [htaken])
      have hstep : (p.erase n).Stacked := by
        have hfree : (p.erase n).free = n :: p.free := by simp [erase, hin]
        have hfresh : (p.erase n).fresh = p.fresh := by simp [erase, hin]
        unfold Stacked at h ⊢
        rw [hfree, hfresh, ← h, htaken]
        simp
      rw [htaken, List.take_succ_cons, List.foldl_cons]
      exact ih hstep (hp.erase_head he)

/-- What was there before is found under the same number after more was added. -/
theorem Consistent.get?_of_suffix {p q : Pool α} (hp : p.Consistent) (hq : q.Consistent)
    (h : p.entries <:+ q.entries) {n : Nat} {a : α} (hn : p.get? n = some a) :
    q.get? n = some a :=
  hq.get?_eq_some_iff.mpr (h.subset (hp.get?_eq_some_iff.mp hn))

/-- Pools with the same entries have the same numbers taken. -/
theorem taken_congr {p q : Pool α} (h : p.entries = q.entries) : p.taken = q.taken :=
  congrArg (List.map Prod.fst) h

/-- Pools that only gained entries only gained numbers. -/
theorem taken_suffix {p q : Pool α} (h : p.entries <:+ q.entries) : p.taken <:+ q.taken :=
  h.map Prod.fst

end Pool

namespace Graph

/-- Whether the numbers, logs, edges and root of a graph fit its nodes. -/
structure Consistent (g : Graph) : Prop where
  /-- Nodes are numbered consistently. -/
  nodes : g.nodes.Consistent
  /-- Edges are numbered consistently. -/
  edges : g.edges.Consistent
  /-- The log of nodes lists those of the graph. -/
  nodeLog : g.nodeLog = g.nodes.taken
  /-- The log of edges lists those of the graph. -/
  edgeLog : g.edgeLog = g.edges.taken
  /-- Consumers are nodes of the graph. -/
  source_mem : ∀ e ∈ g.edges.entries, e.2.source ∈ g.nodes.taken
  /-- Dependencies are nodes of the graph. -/
  target_mem : ∀ e ∈ g.edges.entries, e.2.target ∈ g.nodes.taken
  /-- The root is a node of the graph. -/
  root_mem : ∀ n ∈ g.root, n ∈ g.nodes.taken

/-- Whether a graph has all nodes and edges of another, unchanged, below those added since. -/
structure Extends (g g' : Graph) : Prop where
  /-- Nodes are only added. -/
  nodes : g.nodes.entries <:+ g'.nodes.entries
  /-- Edges are only added. -/
  edges : g.edges.entries <:+ g'.edges.entries
  /-- The root stays. -/
  root : g'.root = g.root

/-- Whether a graph has all nodes and edges of another, unchanged, below those added since, whatever
its root is. -/
structure Keeps (g g' : Graph) : Prop where
  /-- Nodes are only added. -/
  nodes : g.nodes.entries <:+ g'.nodes.entries
  /-- Edges are only added. -/
  edges : g.edges.entries <:+ g'.edges.entries

/-- A graph that extends another one keeps it. -/
theorem Extends.keeps {g g' : Graph} (h : g.Extends g') : g.Keeps g' := ⟨h.nodes, h.edges⟩

theorem Keeps.refl (g : Graph) : g.Keeps g := ⟨List.suffix_refl _, List.suffix_refl _⟩

theorem Keeps.trans {g g' g'' : Graph} (h : g.Keeps g') (h' : g'.Keeps g'') : g.Keeps g'' :=
  ⟨h.nodes.trans h'.nodes, h.edges.trans h'.edges⟩

theorem Extends.refl (g : Graph) : g.Extends g :=
  ⟨List.suffix_refl _, List.suffix_refl _, rfl⟩

theorem Extends.trans {g g' g'' : Graph} (h : g.Extends g') (h' : g'.Extends g'') :
    g.Extends g'' :=
  ⟨h.nodes.trans h'.nodes, h.edges.trans h'.edges, h'.root.trans h.root⟩

/-- A node stays in an extended graph. -/
theorem Extends.mem_taken {g g' : Graph} (h : g.Extends g') {n : NodeId}
    (hn : n ∈ g.nodes.taken) : n ∈ g'.nodes.taken :=
  (Pool.taken_suffix h.nodes).subset hn

/-- A node that stays has the content it had. -/
theorem Extends.get? {g g' : Graph} (h : g.Extends g') (hg : g.Consistent) (hg' : g'.Consistent)
    {n : NodeId} {node : Node} (hn : g.nodes.get? n = some node) :
    g'.nodes.get? n = some node :=
  hg.nodes.get?_of_suffix hg'.nodes h.nodes hn

/-- Whether the nodes of a graph are made for bindings of a table, if for any. -/
def Knows (g : Graph) (table : Table) : Prop :=
  ∀ e ∈ g.nodes.entries, ∀ id s constructor, e.2.origin = .binding id s constructor →
    id < table.bindings.length

/-- Whether a number stands for a node with a property. -/
def Has (g : Graph) (n : NodeId) (p : Node → Prop) : Prop :=
  ∃ node, g.nodes.get? n = some node ∧ p node

instance (g : Graph) (n : NodeId) (p : Node → Prop) [DecidablePred p] : Decidable (g.Has n p) :=
  match h : g.nodes.get? n with
  | none => isFalse fun ⟨_, hn, _⟩ => nomatch h.symm.trans hn
  | some node => decidable_of_iff (p node) (by simp [Has, h])

/-- Whether a number stands for a node that is made: any but an argument of a provider call. -/
def Makes (g : Graph) (n : NodeId) : Prop :=
  g.Has n fun node => ∀ block index, node.origin ≠ .argument block index

/-- Whether a graph has an edge, under whatever number. -/
def HasEdge (g : Graph) (e : Edge) : Prop := ∃ k, (k, e) ∈ g.edges.entries

/-- A property of the content of a node may be weakened. -/
theorem Has.mono {g : Graph} {n : NodeId} {p q : Node → Prop} (h : g.Has n p)
    (hpq : ∀ node, p node → q node) : g.Has n q := by
  obtain ⟨node, hn, hp⟩ := h
  exact ⟨node, hn, hpq node hp⟩

/-- The node for which a number stands has the property. -/
theorem Has.of_get? {g : Graph} {n : NodeId} {p : Node → Prop} (h : g.Has n p) {node : Node}
    (hn : g.nodes.get? n = some node) : p node := by
  obtain ⟨node', hn', hp⟩ := h
  cases hn.symm.trans hn'
  exact hp

/-- A node that has a property is in use. -/
theorem Has.mem_taken {g : Graph} {n : NodeId} {p : Node → Prop} (h : g.Has n p) :
    n ∈ g.nodes.taken := by
  obtain ⟨node, hn, -⟩ := h
  exact Pool.get?_isSome_iff.mp (by simp [hn])

/-- A node keeps its properties in an extended graph. -/
theorem Has.of_extends {g g' : Graph} {n : NodeId} {p : Node → Prop} (h : g.Has n p)
    (hx : g.Extends g') (hg : g.Consistent) (hg' : g'.Consistent) : g'.Has n p := by
  obtain ⟨node, hn, hp⟩ := h
  exact ⟨node, hx.get? hg hg' hn, hp⟩

/-- An edge stays in an extended graph. -/
theorem HasEdge.of_extends {g g' : Graph} {e : Edge} (h : g.HasEdge e) (hx : g.Extends g') :
    g'.HasEdge e := by
  obtain ⟨k, hk⟩ := h
  exact ⟨k, hx.edges.subset hk⟩

/-- An edge is in one graph when it is in another with the same entries. -/
theorem hasEdge_congr {g g' : Graph} (h : g.edges.entries = g'.edges.entries) (e : Edge) :
    g.HasEdge e ↔ g'.HasEdge e := by
  rw [HasEdge, HasEdge, h]

/-- The graph without nodes is consistent. -/
theorem consistent_empty : Graph.empty.Consistent where
  nodes := Pool.consistent_empty
  edges := Pool.consistent_empty
  nodeLog := rfl
  edgeLog := rfl
  source_mem := by simp [empty, Pool.empty]
  target_mem := by simp [empty, Pool.empty]
  root_mem := by simp [empty]

/-- A new node leaves the rest of the graph as it was. -/
theorem extends_addNode (g : Graph) (node : Node) : g.Extends (g.addNode node) :=
  ⟨by simp [addNode], List.suffix_refl _, rfl⟩

/-- A new node has no edges, so that a consistent graph stays consistent. -/
theorem Consistent.addNode {g : Graph} (h : g.Consistent) (node : Node) :
    (g.addNode node).Consistent where
  nodes := h.nodes.add node
  edges := h.edges
  nodeLog := by simp [Graph.addNode, h.nodeLog]
  edgeLog := h.edgeLog
  source_mem e he := (g.extends_addNode node).mem_taken (h.source_mem e he)
  target_mem e he := (g.extends_addNode node).mem_taken (h.target_mem e he)
  root_mem n hn := (g.extends_addNode node).mem_taken (h.root_mem n hn)

/-- A node just added stands under the number it got. -/
theorem get?_addNode (g : Graph) (node : Node) :
    (g.addNode node).nodes.get? g.nodes.nextNumber = some node :=
  g.nodes.get?_add_nextNumber node

/-- A new node is in use. -/
theorem mem_taken_addNode (g : Graph) (node : Node) :
    g.nodes.nextNumber ∈ (g.addNode node).nodes.taken := by
  simp [addNode]

/-- A new node is the only one that was not in use before. -/
theorem mem_taken_addNode_iff {g : Graph} {node : Node} {n : NodeId} :
    n ∈ (g.addNode node).nodes.taken ↔ n = g.nodes.nextNumber ∨ n ∈ g.nodes.taken := by
  simp [addNode]

/-- A new block leaves nodes and edges as they were. -/
theorem extends_addBlock (g : Graph) : g.Extends g.addBlock :=
  ⟨List.suffix_refl _, List.suffix_refl _, rfl⟩

/-- A new block keeps a graph consistent. -/
theorem Consistent.addBlock {g : Graph} (h : g.Consistent) : g.addBlock.Consistent :=
  ⟨h.nodes, h.edges, h.nodeLog, h.edgeLog, h.source_mem, h.target_mem, h.root_mem⟩

/-- What an edge that could be added leads to: its ends are nodes, and it is the last edge. -/
theorem addEdge_eq_ok {g g' : Graph} {e : Edge} (h : g.addEdge e = .ok g') :
    e.source ∈ g.nodes.taken ∧ e.target ∈ g.nodes.taken ∧
      g' = { g with edges := g.edges.add e, edgeLog := g.edges.nextNumber :: g.edgeLog } := by
  unfold addEdge at h
  split at h
  · rename_i hs
    split at h
    · rename_i ht
      exact ⟨Pool.contains_iff.mp hs, Pool.contains_iff.mp ht, (Except.ok.inj h).symm⟩
    · cases h
  · cases h

/-- A new edge leaves the rest of the graph as it was. -/
theorem extends_addEdge {g g' : Graph} {e : Edge} (h : g.addEdge e = .ok g') : g.Extends g' := by
  obtain ⟨-, -, rfl⟩ := addEdge_eq_ok h
  exact ⟨List.suffix_refl _, by simp, rfl⟩

/-- An edge is only added between nodes in use, so that a consistent graph stays consistent. -/
theorem Consistent.addEdge {g g' : Graph} {e : Edge} (hg : g.Consistent)
    (h : g.addEdge e = .ok g') : g'.Consistent := by
  obtain ⟨hs, ht, rfl⟩ := addEdge_eq_ok h
  refine ⟨hg.nodes, hg.edges.add e, hg.nodeLog, by simp [hg.edgeLog], ?_, ?_, hg.root_mem⟩ <;>
    simp only [Pool.entries_add, List.mem_cons] <;> rintro f (rfl | hf)
  · exact hs
  · exact hg.source_mem f hf
  · exact ht
  · exact hg.target_mem f hf

/-- Adding an edge adds just this edge. -/
theorem hasEdge_addEdge {g g' : Graph} {e : Edge} (h : g.addEdge e = .ok g') (f : Edge) :
    g'.HasEdge f ↔ g.HasEdge f ∨ f = e := by
  obtain ⟨-, -, rfl⟩ := addEdge_eq_ok h
  simp only [HasEdge, Pool.entries_add, List.mem_cons, Prod.mk.injEq]
  constructor
  · rintro ⟨k, ⟨-, rfl⟩ | hk⟩
    · exact .inr rfl
    · exact .inl ⟨k, hk⟩
  · rintro (⟨k, hk⟩ | rfl)
    · exact ⟨k, .inr hk⟩
    · exact ⟨_, .inl ⟨rfl, rfl⟩⟩

/-- An edge between nodes of the graph can be added. -/
theorem addEdge_ok {g : Graph} {e : Edge} (hs : e.source ∈ g.nodes.taken)
    (ht : e.target ∈ g.nodes.taken) : ∃ g', g.addEdge e = .ok g' := by
  unfold Graph.addEdge
  rw [if_pos (Pool.contains_iff.mpr hs), if_pos (Pool.contains_iff.mpr ht)]
  exact ⟨_, rfl⟩

/-- A change of the content of a node keeps a graph consistent. -/
theorem Consistent.modifyNode {g g' : Graph} {n : NodeId} {f : Node → Node} (hg : g.Consistent)
    (h : g.modifyNode n f = .ok g') : g'.Consistent := by
  unfold Graph.modifyNode at h
  split at h
  · cases h
    refine ⟨hg.nodes.modify n f, hg.edges, ?_, hg.edgeLog, ?_, ?_, ?_⟩ <;>
      simp only [Pool.taken_modify]
    · exact hg.nodeLog
    · exact hg.source_mem
    · exact hg.target_mem
    · exact hg.root_mem
  · cases h

/-- Changing a node changes nothing but what stands under its number. -/
theorem modifyNode_eq_ok {g g' : Graph} {n : NodeId} {f : Node → Node}
    (h : g.modifyNode n f = .ok g') : g' = { g with nodes := g.nodes.modify n f } := by
  unfold Graph.modifyNode at h
  split at h
  · exact (Except.ok.inj h).symm
  · cases h

/-- A node of the graph can be changed. -/
theorem modifyNode_ok {g : Graph} {n : NodeId} {f : Node → Node} (hn : n ∈ g.nodes.taken) :
    ∃ g', g.modifyNode n f = .ok g' :=
  ⟨_, if_pos (Pool.contains_iff.mpr hn)⟩

/-- What a change gives holds of the node that is changed. -/
theorem Has.modifyNode {g g' : Graph} {n : NodeId} {f : Node → Node} {p r : Node → Prop}
    (h : g.Has n p) (hg : g.modifyNode n f = .ok g') (hf : ∀ node, p node → r (f node)) :
    g'.Has n r := by
  obtain ⟨node, hn, hp⟩ := h
  unfold Graph.modifyNode at hg
  split at hg
  · cases hg
    exact ⟨f node, by simp [Pool.get?_modify, hn], hf node hp⟩
  · cases hg

/-- Changing a node leaves the others as they are. -/
theorem Has.of_modifyNode_ne {g g' : Graph} {n m : NodeId} {f : Node → Node} {p : Node → Prop}
    (h : g.Has n p) (hg : g.modifyNode m f = .ok g') (hne : n ≠ m) : g'.Has n p := by
  obtain ⟨node, hn, hp⟩ := h
  unfold Graph.modifyNode at hg
  split at hg
  · cases hg
    exact ⟨node, by simp [Pool.get?_modify, hne, hn], hp⟩
  · cases hg

/-- What holds of nodes holds of them after one is changed, if the change keeps it. -/
theorem Has.of_modifyNode {g g' : Graph} {n m : NodeId} {f : Node → Node} {p : Node → Prop}
    (h : g.Has n p) (hg : g.modifyNode m f = .ok g') (hf : ∀ node, p node → p (f node)) :
    g'.Has n p := by
  by_cases heq : n = m
  · subst heq
    exact h.modifyNode hg hf
  · exact h.of_modifyNode_ne hg heq

/-- A change of the content of a node leaves the edges alone. -/
theorem edges_modifyNode {g g' : Graph} {n : NodeId} {f : Node → Node}
    (h : g.modifyNode n f = .ok g') : g'.edges = g.edges := by
  unfold Graph.modifyNode at h
  split at h
  · cases h
    rfl
  · cases h

/-- Changing a node that was added since leaves a graph that extends the earlier one. -/
theorem Extends.modifyNode {g₀ g g' : Graph} (hx : g₀.Extends g) {n : NodeId}
    (hn : n ∉ g₀.nodes.taken) {f : Node → Node} (h : g.modifyNode n f = .ok g') :
    g₀.Extends g' := by
  unfold Graph.modifyNode at h
  split at h
  · cases h
    refine ⟨?_, hx.edges, hx.root⟩
    have hsame : (g₀.nodes.entries.map fun e => if e.1 = n then (e.1, f e.2) else e) =
        g₀.nodes.entries := by
      refine List.map_congr_left (fun e he => ?_) |>.trans (List.map_id _)
      have hne : e.1 ≠ n := fun heq => hn (List.mem_map.mpr ⟨e, he, heq⟩)
      simp [hne]
    simp only [Pool.modify]
    rw [← hsame]
    exact hx.nodes.map _
  · cases h

/-- A new node of a binding of the table is known to the table. -/
theorem Knows.addNode {g : Graph} {table : Table} (h : g.Knows table) {node : Node}
    (hnode : ∀ id s constructor, node.origin = .binding id s constructor →
      id < table.bindings.length) : (g.addNode node).Knows table := by
  intro e he
  simp only [Graph.addNode, Pool.entries_add] at he
  rcases List.mem_cons.mp he with rfl | he
  · exact hnode
  · exact h e he

/-- A changed node that stays with its binding is known to the table still. -/
theorem Knows.modifyNode {g g' : Graph} {table : Table} (h : g.Knows table) {n : NodeId}
    {f : Node → Node} (hg : g.modifyNode n f = .ok g')
    (hf : ∀ node id s constructor, (f node).origin = .binding id s constructor →
      ∃ constructor', node.origin = .binding id s constructor') : g'.Knows table := by
  unfold Graph.modifyNode at hg
  split at hg
  · cases hg
    intro e he id s constructor ho
    obtain ⟨e₀, he₀, rfl⟩ := List.mem_map.mp he
    split at ho
    · obtain ⟨constructor', ho'⟩ := hf _ _ _ _ ho
      exact h e₀ he₀ id s constructor' ho'
    · exact h e₀ he₀ id s constructor ho
  · cases hg

/-- Without edges at a node, removing it only erases it. -/
theorem removeNode_of_isolated {g : Graph} {n : NodeId} (hn : n ∈ g.nodes.taken)
    (h : ∀ e ∈ g.edges.entries, e.2.source ≠ n ∧ e.2.target ≠ n) :
    g.removeNode n = { g with nodes := g.nodes.erase n } := by
  have hout : g.outgoing n = [] := List.filter_eq_nil_iff.mpr fun e he => by simp [(h e he).1]
  have hin : g.incoming n = [] := List.filter_eq_nil_iff.mpr fun e he => by simp [(h e he).2]
  simp [removeNode, Pool.contains_iff.mpr hn, hout, hin]

/-- The step that takes back one node. -/
private def dropNode (g : Graph) (n : NodeId) : Graph :=
  let g := g.removeNode n
  if g.root = some n then { g with root := none } else g

/-- When no edge is left at the nodes added last, taking them back only erases them and unsets the
root if it is one of them. -/
private theorem foldl_dropNode {g : Graph} (h : g.nodes.Consistent) (k : Nat)
    (hedges : ∀ e ∈ g.edges.entries,
      e.2.source ∈ g.nodes.taken.drop k ∧ e.2.target ∈ g.nodes.taken.drop k) :
    (g.nodes.taken.take k).foldl dropNode g =
      { g with
        nodes := (g.nodes.taken.take k).foldl Pool.erase g.nodes
        root := g.root.filter (· ∉ g.nodes.taken.take k) } := by
  have hall (root : Option NodeId) : root.filter (fun _ => true) = root := by
    cases root <;> rfl
  induction k generalizing g with
  | zero => simp [hall]
  | succ k ih =>
    cases he : g.nodes.entries with
    | nil => simp [Pool.taken, he, hall]
    | cons e rest =>
      obtain ⟨n, node⟩ := e
      have herase := Pool.entries_erase_head h he
      have htaken : g.nodes.taken = n :: (g.nodes.erase n).taken := by
        simp [Pool.taken, he, herase]
      have hnot : n ∉ (g.nodes.erase n).taken := by
        have hnodup := h.nodup_taken
        rw [htaken] at hnodup
        exact (List.nodup_cons.mp hnodup).1
      have hlate : ∀ m ∈ (g.nodes.erase n).taken.drop k, m ≠ n := by
        rintro m hm rfl
        exact hnot (List.mem_of_mem_drop hm)
      rw [htaken, List.drop_succ_cons] at hedges
      have hremove : g.removeNode n = { g with nodes := g.nodes.erase n } :=
        removeNode_of_isolated (by simp [htaken])
          fun f hf => ⟨hlate _ (hedges f hf).1, hlate _ (hedges f hf).2⟩
      have hstep : dropNode g n =
          { g with nodes := g.nodes.erase n, root := g.root.filter (· ≠ n) } := by
        cases hr : g.root with
        | none => simp [dropNode, hremove, hr]
        | some m => by_cases hm : m = n <;> simp [dropNode, hremove, hr, hm, Option.filter_some]
      have hroots : (g.root.filter (· ≠ n)).filter (· ∉ (g.nodes.erase n).taken.take k) =
          g.root.filter (· ∉ n :: (g.nodes.erase n).taken.take k) := by
        simp [Option.filter_filter]
      rw [htaken, List.take_succ_cons, List.foldl_cons, List.foldl_cons, hstep, ← hroots]
      exact ih (g := { g with nodes := g.nodes.erase n, root := g.root.filter (· ≠ n) })
        (h.erase_head he) hedges

/-- The root is one of the nodes that stay if it is not one of those added last. -/
private theorem filter_root {g : Graph} (h : g.Consistent) (k : Nat) :
    g.root.filter (· ∉ g.nodes.taken.take k) = g.root.filter (· ∈ g.nodes.taken.drop k) := by
  cases hr : g.root with
  | none => rfl
  | some n =>
    have hmem : n ∈ g.nodes.taken.take k ++ g.nodes.taken.drop k := by
      rw [List.take_append_drop]
      exact h.root_mem n hr
    have hiff : n ∉ g.nodes.taken.take k ↔ n ∈ g.nodes.taken.drop k :=
      ⟨(List.mem_append.mp hmem).resolve_left, fun hlast hfirst =>
        List.disjoint_take_drop h.nodes.nodup_taken (Nat.le_refl k) hfirst hlast⟩
    simp only [Option.filter_some, hiff]

/-- When the edges that stay are at nodes that stay, taking back only erases what was added last
and unsets the root if it is erased. -/
private theorem rollback_eq {g : Graph} (h : g.Consistent) {c : Checkpoint}
    (hn : c.nodes ≤ g.nodes.taken.length) (he : c.edges ≤ g.edges.taken.length)
    (hedges : ∀ e ∈ g.edges.entries.drop (g.edges.taken.length - c.edges),
      e.2.source ∈ g.nodes.taken.drop (g.nodes.taken.length - c.nodes) ∧
        e.2.target ∈ g.nodes.taken.drop (g.nodes.taken.length - c.nodes)) :
    g.rollback c = .ok { g with
      nodes := (g.nodes.taken.take (g.nodes.taken.length - c.nodes)).foldl Pool.erase g.nodes
      edges := (g.edges.taken.take (g.edges.taken.length - c.edges)).foldl Pool.erase g.edges
      root := g.root.filter (· ∉ g.nodes.taken.take (g.nodes.taken.length - c.nodes))
      nodeLog := g.nodes.taken.drop (g.nodes.taken.length - c.nodes)
      edgeLog := g.edges.taken.drop (g.edges.taken.length - c.edges) } := by
  have hlate : ¬ (g.edgeLog.length < c.edges ∨ g.nodeLog.length < c.nodes) := by
    rw [h.edgeLog, h.nodeLog]
    omega
  unfold Graph.rollback
  rw [if_neg hlate, h.nodeLog, h.edgeLog]
  refine congrArg Except.ok ((foldl_dropNode (g := { g with
    edges := (g.edges.taken.take (g.edges.taken.length - c.edges)).foldl Pool.erase g.edges
    nodeLog := g.nodes.taken.drop (g.nodes.taken.length - c.nodes)
    edgeLog := g.edges.taken.drop (g.edges.taken.length - c.edges) }) h.nodes _ ?_))
  intro e hmem
  rw [(h.edges.foldl_erase _).2] at hmem
  exact hedges e hmem

/-- Taking a graph back to a checkpoint of one that it keeps leaves the nodes and edges of that one,
the root if it is one of these nodes, and the blocks that were opened. -/
theorem Keeps.rollback {g₀ g : Graph} (hx : g₀.Keeps g) (h₀ : g₀.Consistent)
    (h : g.Consistent) :
    ∃ g', g.rollback g₀.checkpoint = .ok g' ∧ g'.Consistent ∧
      g'.nodes.entries = g₀.nodes.entries ∧ g'.edges.entries = g₀.edges.entries ∧
      g'.root = g.root.filter (· ∈ g₀.nodes.taken) ∧ g'.blocks = g.blocks ∧
      (g.nodes.Stacked → g'.nodes.Stacked) := by
  have hcn : g₀.checkpoint.nodes = g₀.nodes.taken.length := by simp [checkpoint, h₀.nodeLog]
  have hce : g₀.checkpoint.edges = g₀.edges.taken.length := by simp [checkpoint, h₀.edgeLog]
  have hln := (Pool.taken_suffix hx.nodes).length_le
  have hle := (Pool.taken_suffix hx.edges).length_le
  have hnodes : g.nodes.entries.drop (g.nodes.taken.length - g₀.checkpoint.nodes) =
      g₀.nodes.entries := by
    simpa [hcn, Pool.taken] using (List.suffix_iff_eq_drop.mp hx.nodes).symm
  have hedges : g.edges.entries.drop (g.edges.taken.length - g₀.checkpoint.edges) =
      g₀.edges.entries := by
    simpa [hce, Pool.taken] using (List.suffix_iff_eq_drop.mp hx.edges).symm
  have htaken : g.nodes.taken.drop (g.nodes.taken.length - g₀.checkpoint.nodes) =
      g₀.nodes.taken := by
    simpa [hcn] using (List.suffix_iff_eq_drop.mp (Pool.taken_suffix hx.nodes)).symm
  have heq := rollback_eq h (c := g₀.checkpoint) (hcn ▸ hln) (hce ▸ hle)
    (fun e he => by
      rw [hedges] at he
      rw [htaken]
      exact ⟨h₀.source_mem e he, h₀.target_mem e he⟩)
  have hstays := filter_root h (g.nodes.taken.length - g₀.checkpoint.nodes)
  rw [htaken] at hstays
  obtain ⟨hnc, hne⟩ := h.nodes.foldl_erase (g.nodes.taken.length - g₀.checkpoint.nodes)
  obtain ⟨hec, hee⟩ := h.edges.foldl_erase (g.edges.taken.length - g₀.checkpoint.edges)
  rw [hnodes] at hne
  rw [hedges] at hee
  have hnt := Pool.taken_congr hne
  have het := Pool.taken_congr hee
  refine ⟨_, heq, ⟨hnc, hec, htaken.trans hnt.symm, ?_, ?_, ?_, ?_⟩, hne, hee, hstays, rfl,
    fun hstacked => hstacked.foldl_erase h.nodes _⟩
  · rw [het, hce]
    exact (List.suffix_iff_eq_drop.mp (Pool.taken_suffix hx.edges)).symm
  · exact fun e he => hnt ▸ h₀.source_mem e (hee ▸ he)
  · exact fun e he => hnt ▸ h₀.target_mem e (hee ▸ he)
  · intro n hn
    rw [hstays] at hn
    exact hnt ▸ of_decide_eq_true (Option.mem_filter_iff.mp hn).2

/-- Taking a graph back to a checkpoint of one that it extends leaves the nodes, edges and root of
that one, and the blocks that were opened. -/
theorem Extends.rollback {g₀ g : Graph} (hx : g₀.Extends g) (h₀ : g₀.Consistent)
    (h : g.Consistent) :
    ∃ g', g.rollback g₀.checkpoint = .ok g' ∧ g'.Consistent ∧
      g'.nodes.entries = g₀.nodes.entries ∧ g'.edges.entries = g₀.edges.entries ∧
      g'.root = g₀.root ∧ g'.blocks = g.blocks ∧ (g.nodes.Stacked → g'.nodes.Stacked) := by
  obtain ⟨g', hg', hc, hn, he, hr, hrest⟩ := hx.keeps.rollback h₀ h
  have hroot : g.root.filter (· ∈ g₀.nodes.taken) = g₀.root := by
    rw [hx.root]
    cases hr : g₀.root with
    | none => rfl
    | some n => exact Option.filter_some_pos (decide_eq_true (h₀.root_mem n hr))
  exact ⟨g', hg', hc, hn, he, hr.trans hroot, hrest⟩

end Graph

end Injector
