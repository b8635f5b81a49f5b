import Injector.Proofs.Graph.Correspondence
import Injector.Proofs.Wiring.Completion

/-!
# Builds that correspond

Two builds correspond where they have made the same and are in the same situation, up to the names
of blocks: what fails and is taken back opens blocks and segments that are never given out again, so
that what is made afterwards gets other names. The main statement is that queries that correspond
have verdicts that correspond, unless one of them is answered by a remembered failure.
-/

namespace Injector

section Lists

variable {α β : Type} {R : α → β → Prop} {as : List α} {bs : List β}

/-- What is related is there in both cases or in none. -/
theorem rel_cases {a : Option α} {b : Option β} (h : Option.Rel R a b) :
    a = none ∧ b = none ∨ ∃ x y, a = some x ∧ b = some y ∧ R x y := by
  cases h with
  | none => exact .inl ⟨rfl, rfl⟩
  | some hxy => exact .inr ⟨_, _, rfl, rfl, hxy⟩

/-- What is found first in lists corresponds, where both are searched for the same. -/
theorem find?_rel (h : List.Forall₂ R as bs) {p : α → Bool} {p' : β → Bool}
    (hp : ∀ a b, R a b → p a = p' b) : Option.Rel R (as.find? p) (bs.find? p') := by
  induction h with
  | nil => exact .none
  | cons hab _ ih =>
    rw [List.find?_cons, List.find?_cons, hp _ _ hab]
    split
    · exact .some hab
    · exact ih

end Lists

namespace Wiring

/-- Whether shared instances are recognised alike. -/
structure SharedKey.Corresponds (pairs : Pairing) (k k' : SharedKey) : Prop where
  /-- They are of one binding. -/
  binding : k.binding = k'.binding
  /-- Under the same choices. -/
  substitution : k.substitution = k'.substitution
  /-- In blocks that stand for each other, if in any. -/
  block : Option.Rel pairs k.block k'.block

/-- Whether arguments come from the same place. -/
inductive Source.Corresponds (pairs : Pairing) : Source → Source → Prop
  /-- They are not used yet. -/
  | argument {block block' : BlockId} (index : Nat) (opened : pairs block block') :
      Corresponds pairs (.argument block index) (.argument block' index)
  /-- They have the same node. -/
  | node (n : NodeId) : Corresponds pairs (.node n) (.node n)

/-- Whether the node of an argument was taken back. -/
def Argument.IsLost (g : Graph) (a : Argument) : Prop :=
  ∃ n, a.source = .node n ∧ n ∉ g.nodes.taken

/-- Whether arguments have one type and come from the same place. -/
def Argument.Same (pairs : Pairing) (a a' : Argument) : Prop :=
  a.type = a'.type ∧ a.source.Corresponds pairs a'.source

/-- Whether arguments have one type and come from the same place, if neither lost its node. -/
def Argument.Corresponds (pairs : Pairing) (g g' : Graph) (a a' : Argument) : Prop :=
  a.type = a'.type ∧ (a.source.Corresponds pairs a'.source ∨ a.IsLost g ∨ a'.IsLost g')

/-- Whether the same is under construction in segments that stand for each other. -/
structure Frame.Corresponds (pairs : Pairing) (f f' : Frame) : Prop where
  /-- It is recognised by the same. -/
  key : f.key = f'.key
  /-- It has the same node. -/
  node : f.node = f'.node
  /-- It is made in segments that stand for each other. -/
  segment : pairs f.segment f'.segment
  /-- It was asked for by one contract. -/
  contract : f.contract = f'.contract

/-- Whether requests are surrounded by the same. -/
structure Context.Corresponds (pairs : Pairing) (c c' : Context) : Prop where
  /-- The same is under construction. -/
  path : List.Forall₂ (Frame.Corresponds pairs) c.path c'.path
  /-- The segments stand for each other. -/
  segment : pairs c.segment c'.segment
  /-- The blocks stand for each other. -/
  block : pairs c.block c'.block

/-- Whether states have the same graph, shared instances and arguments. -/
structure State.Corresponds (pairs : Pairing) (s s' : State) : Prop where
  /-- No block stands for two. -/
  unique : Relator.BiUnique pairs
  /-- Blocks that stand for each other were opened. -/
  opened : ∀ b b', pairs b b' → b < s.graph.blocks ∧ b' < s'.graph.blocks
  /-- They have the same graph. -/
  graph : s.graph.Corresponds pairs s'.graph
  /-- They have the same shared instances. -/
  shared : List.Forall₂ (fun e e' => e.1.Corresponds pairs e'.1 ∧ e.2 = e'.2) s.shared s'.shared
  /-- They have the same arguments. -/
  arguments : List.Forall₂ (Argument.Corresponds pairs s.graph s'.graph) s.arguments s'.arguments

/-- Whether queries of two builds are asked in the same situation. -/
structure Query.Corresponds (pairs : Pairing) (q q' : Query) : Prop where
  /-- They are surrounded by the same. -/
  context : q.context.Corresponds pairs q'.context
  /-- They make one request. -/
  request : q.request = q'.request
  /-- For the same time. -/
  timing : q.timing = q'.timing
  /-- At the same place. -/
  site : q.site = q'.site
  /-- With the same built. -/
  state : q.state.Corresponds pairs q'.state

/-- Whether verdicts come to the same. -/
inductive Verdict.Corresponds (pairs : Pairing) : Verdict → Verdict → Prop
  /-- An argument answers the queries. -/
  | argument {a a' : Argument} (same : a.Same pairs a') :
      Corresponds pairs (.argument a) (.argument a')
  /-- Nothing answers them. -/
  | unresolved : Corresponds pairs .unresolved .unresolved
  /-- One node answers them. -/
  | linked (n : NodeId) : Corresponds pairs (.linked n) (.linked n)
  /-- They close loops. -/
  | loop {members members' : List String} {path path' : String} :
      Corresponds pairs (.loop members path) (.loop members' path')
  /-- They ask for the same value. -/
  | make {m m' : Making} (key : m.key = m'.key) (content : m.content.Corresponds pairs m'.content)
      (work : m.work = m'.work)
      (shared : Option.Rel (SharedKey.Corresponds pairs) m.shared m'.shared) :
      Corresponds pairs (.make m) (.make m')

variable {pairs pairs' : Pairing} {resolver : Resolver}

/-- Keys of shared values correspond under more pairs. -/
theorem SharedKey.Corresponds.mono {k k' : SharedKey} (h : k.Corresponds pairs k')
    (hle : pairs ≤ pairs') : k.Corresponds pairs' k' := by
  obtain ⟨binding, substitution, block⟩ := k
  obtain ⟨binding', substitution', block'⟩ := k'
  refine ⟨h.binding, h.substitution, ?_⟩
  cases h.block with
  | some hblock => exact .some (hle _ _ hblock)
  | none => exact .none

/-- What arguments are taken from corresponds under more pairs. -/
theorem Source.Corresponds.mono {a a' : Source} (h : a.Corresponds pairs a')
    (hle : pairs ≤ pairs') : a.Corresponds pairs' a' := by
  cases h with
  | argument index hopened => exact .argument index (hle _ _ hopened)
  | node n => exact .node n

/-- What is under construction corresponds under more pairs. -/
theorem Context.Corresponds.mono {c c' : Context} (h : c.Corresponds pairs c')
    (hle : pairs ≤ pairs') : c.Corresponds pairs' c' :=
  ⟨h.path.imp fun _ _ hf => ⟨hf.key, hf.node, hle _ _ hf.segment, hf.contract⟩,
    hle _ _ h.segment, hle _ _ h.block⟩

/-- States correspond by what they have built. -/
theorem State.Corresponds.of_eq {s s' t t' : State} (h : s.Corresponds pairs s')
    (hgraph : t.graph = s.graph) (hshared : t.shared = s.shared)
    (harguments : t.arguments = s.arguments) (hgraph' : t'.graph = s'.graph)
    (hshared' : t'.shared = s'.shared) (harguments' : t'.arguments = s'.arguments) :
    t.Corresponds pairs t' := by
  refine ⟨h.unique, ?_, ?_, ?_, ?_⟩
  · rw [hgraph, hgraph']
    exact h.opened
  · rw [hgraph, hgraph']
    exact h.graph
  · rw [hshared, hshared']
    exact h.shared
  · rw [hgraph, hgraph', harguments, harguments']
    exact h.arguments

/-- Whether two keys are the same does not depend on the names of blocks. -/
theorem SharedKey.Corresponds.eq_iff (hunique : Relator.BiUnique pairs) {k k' l l' : SharedKey}
    (h : k.Corresponds pairs k') (hl : l.Corresponds pairs l') : k = l ↔ k' = l' := by
  obtain ⟨kb, ks, k⟩ := k
  obtain ⟨kb', ks', k'⟩ := k'
  obtain ⟨lb, ls, l⟩ := l
  obtain ⟨lb', ls', l'⟩ := l'
  obtain ⟨rfl, rfl, hk⟩ := h
  obtain ⟨rfl, rfl, hl⟩ := hl
  have hblock : k = l ↔ k' = l' := by
    cases hk with
    | none => cases hl <;> simp
    | some hk =>
      cases hl with
      | none => simp
      | some hl => simpa using Relator.rel_eq hunique hk hl
  rw [SharedKey.mk.injEq, SharedKey.mk.injEq, hblock]

/-- What is shared under keys that correspond is the same. -/
theorem lookup_shared (hunique : Relator.BiUnique pairs)
    {shared shared' : List (SharedKey × NodeId)}
    (h : List.Forall₂ (fun e e' => e.1.Corresponds pairs e'.1 ∧ e.2 = e'.2) shared shared')
    {k k' : SharedKey} (hk : k.Corresponds pairs k') : shared.lookup k = shared'.lookup k' := by
  induction h with
  | nil => rfl
  | @cons e e' _ _ he _ ih =>
    have hsame : (k == e.1) = (k' == e'.1) := by
      rw [Bool.eq_iff_iff, beq_iff_eq, beq_iff_eq]
      exact hk.eq_iff hunique he.1
    rw [List.lookup_cons, List.lookup_cons, hsame, he.2, ih]

/-- Values of corresponding blocks are shared by corresponding keys. -/
theorem SharedKey.of?_corresponds {block block' : BlockId} (h : pairs block block')
    (lifetime : Lifetime) (id : BindingId) (s : Substitution) :
    Option.Rel (SharedKey.Corresponds pairs) (SharedKey.of? lifetime id s block)
      (SharedKey.of? lifetime id s block') := by
  unfold SharedKey.of?
  cases lifetime
  case transient => exact .none
  case perBlock => exact .some ⟨rfl, rfl, .some h⟩
  all_goals exact .some ⟨rfl, rfl, .none⟩

/-- Arguments that kept their nodes come from the same place. -/
theorem same_of_kept {g g' : Graph} {as as' : List Argument}
    (h : List.Forall₂ (Argument.Corresponds pairs g g') as as') (hkept : ∀ a ∈ as, ¬ a.IsLost g)
    (hkept' : ∀ a ∈ as', ¬ a.IsLost g') : List.Forall₂ (Argument.Same pairs) as as' := by
  induction h with
  | nil => exact .nil
  | cons ha _ ih =>
    obtain ⟨hhere, hrest⟩ := List.forall_mem_cons.mp hkept
    obtain ⟨hhere', hrest'⟩ := List.forall_mem_cons.mp hkept'
    obtain ⟨htype, hsource | hlost | hlost⟩ := ha
    · exact .cons ⟨htype, hsource⟩ (ih hrest hrest')
    · exact absurd hlost hhere
    · exact absurd hlost hhere'

section State

variable {s s' t t' : State}

/-- Arguments correspond after they got nodes that were taken back: one that got a node since got
one that is not there, so that it stands for any. -/
theorem Argument.Corresponds.of_becomes {g g' u u' : Graph} {a a' b b' : Argument}
    (h : a.Corresponds pairs g g' a') (hb : a.Becomes g b) (hb' : a'.Becomes g' b')
    (hu : u.nodes.taken = g.nodes.taken) (hu' : u'.nodes.taken = g'.nodes.taken) :
    b.Corresponds pairs u u' b' := by
  obtain ⟨htype, hsource⟩ := h
  rcases hb with rfl | ⟨hbtype, n, hn, hlost⟩ <;> rcases hb' with rfl | ⟨hbtype', n', hn', hlost'⟩
  · refine ⟨htype, hsource.imp_right ?_⟩
    simp only [IsLost, hu, hu']
    exact id
  · exact ⟨htype.trans hbtype'.symm, .inr (.inr ⟨n', hn', hu' ▸ hlost'⟩)⟩
  · exact ⟨hbtype.trans htype, .inr (.inl ⟨n, hn, hu ▸ hlost⟩)⟩
  · exact ⟨hbtype.trans (htype.trans hbtype'.symm), .inr (.inl ⟨n, hn, hu ▸ hlost⟩)⟩

/-- Arguments correspond after nodes that they got were taken back in both builds. -/
theorem arguments_of_becomes {g g' u u' : Graph} {as as' bs bs' : List Argument}
    (h : List.Forall₂ (Argument.Corresponds pairs g g') as as')
    (hb : List.Forall₂ (Argument.Becomes g) as bs)
    (hb' : List.Forall₂ (Argument.Becomes g') as' bs')
    (hu : u.nodes.taken = g.nodes.taken) (hu' : u'.nodes.taken = g'.nodes.taken) :
    List.Forall₂ (Argument.Corresponds pairs u u') bs bs' := by
  induction h generalizing bs bs' with
  | nil =>
    cases hb
    cases hb'
    exact .nil
  | cons ha _ ih =>
    cases hb with
    | cons hhere hb =>
      cases hb' with
      | cons hhere' hb' => exact .cons (ha.of_becomes hhere hhere' hu hu') (ih hb hb')

/-- Graphs that correspond and have the numbers of those of states can stand in for them. -/
theorem State.Corresponds.withGraph (h : s.Corresponds pairs s') {g g' : Graph}
    (hg : g.Corresponds pairs g') (hblocks : g.blocks = s.graph.blocks)
    (hblocks' : g'.blocks = s'.graph.blocks) (htaken : g.nodes.taken = s.graph.nodes.taken)
    (htaken' : g'.nodes.taken = s'.graph.nodes.taken) :
    { s with graph := g }.Corresponds pairs { s' with graph := g' } := by
  refine ⟨h.unique, ?_, hg, h.shared, arguments_of_becomes h.arguments
    (State.becomes_refl _ _) (State.becomes_refl _ _) htaken htaken'⟩
  simpa only [hblocks, hblocks'] using h.opened

/-- States correspond after the same edge is added to both graphs. -/
theorem State.Corresponds.addEdge (h : s.Corresponds pairs s') {e : Edge} {g g' : Graph}
    (hg : s.graph.addEdge e = .ok g) (hg' : s'.graph.addEdge e = .ok g') :
    { s with graph := g }.Corresponds pairs { s' with graph := g' } := by
  have hgraph := h.graph.addEdge hg hg'
  obtain ⟨-, -, rfl⟩ := Graph.addEdge_eq_ok hg
  obtain ⟨-, -, rfl⟩ := Graph.addEdge_eq_ok hg'
  exact h.withGraph hgraph rfl rfl rfl rfl

/-- Nodes correspond after the same constructor is noted at them. -/
theorem chosen_corresponds {node node' : Node} (h : node.Corresponds pairs node') (index : Nat) :
    (chosen index node).Corresponds pairs (chosen index node') := by
  obtain ⟨contract, block, origin, lifetime, scope, disposable, label, location⟩ := node
  obtain ⟨contract', block', origin', lifetime', scope', disposable', label', location'⟩ := node'
  obtain ⟨hblock, horigin, hrest⟩ := h
  cases hrest
  cases horigin with
  | binding id s constructor => exact ⟨hblock, .binding id s (some index), rfl⟩
  | synthesized strategy providerArgs => exact ⟨hblock, .synthesized strategy providerArgs, rfl⟩
  | argument i hopened => exact ⟨hblock, .argument i hopened, rfl⟩

/-- States correspond after the same constructor is noted at a node. -/
theorem State.Corresponds.choose (h : s.Corresponds pairs s') {n : NodeId} {index : Nat}
    {g g' : Graph} (hg : s.graph.modifyNode n (chosen index) = .ok g)
    (hg' : s'.graph.modifyNode n (chosen index) = .ok g') :
    { s with graph := g }.Corresponds pairs { s' with graph := g' } := by
  have hgraph := h.graph.modifyNode (fun _ _ hnode => chosen_corresponds hnode index) hg hg'
  have heq := Graph.modifyNode_eq_ok hg
  have heq' := Graph.modifyNode_eq_ok hg'
  refine h.withGraph hgraph (by rw [heq]) (by rw [heq']) ?_ ?_
  · rw [heq]
    exact Pool.taken_modify _ _ _
  · rw [heq']
    exact Pool.taken_modify _ _ _

/-- States correspond after a node is added and their arguments come from the same places. -/
theorem State.Corresponds.addNode (h : s.Corresponds pairs s') (hs : s.graph.nodes.Stacked)
    (hs' : s'.graph.nodes.Stacked) {node node' : Node} (hnode : node.Corresponds pairs node')
    {as as' : List Argument} (has : List.Forall₂ (Argument.Same pairs) as as') :
    { s with graph := s.graph.addNode node, arguments := as }.Corresponds pairs
      { s' with graph := s'.graph.addNode node', arguments := as' } :=
  ⟨h.unique, h.opened, h.graph.addNode hs hs' hnode, h.shared,
    has.imp fun _ _ ha => ⟨ha.1, .inl ha.2⟩⟩

/-- States correspond after a node is noted to be shared by corresponding keys. -/
theorem State.Corresponds.sharing (h : s.Corresponds pairs s') {k k' : Option SharedKey}
    (hk : Option.Rel (SharedKey.Corresponds pairs) k k') (n : NodeId) :
    (s.sharing k n).Corresponds pairs (s'.sharing k' n) := by
  cases hk with
  | none => exact h
  | some hk => exact ⟨h.unique, h.opened, h.graph, .cons ⟨hk, rfl⟩ h.shared, h.arguments⟩

/-- States that are taken back to ones that correspond do so again. -/
theorem State.Corresponds.restored (h : s.Corresponds pairs s') {g g' : Graph}
    (hx : s.Extends (t.restored s g)) (hx' : s'.Extends (t'.restored s' g'))
    (hnodes : g.nodes.entries = s.graph.nodes.entries)
    (hnodes' : g'.nodes.entries = s'.graph.nodes.entries)
    (hedges : g.edges.entries = s.graph.edges.entries)
    (hedges' : g'.edges.entries = s'.graph.edges.entries) :
    (t.restored s g).Corresponds pairs (t'.restored s' g') := by
  refine ⟨h.unique, fun b b' hb => ?_, ⟨?_, ?_, ?_⟩, h.shared,
    arguments_of_becomes h.arguments hx.arguments hx'.arguments (Pool.taken_congr hnodes)
      (Pool.taken_congr hnodes')⟩
  · obtain ⟨hlt, hlt'⟩ := h.opened b b' hb
    exact ⟨Nat.lt_of_lt_of_le hlt hx.blocks, Nat.lt_of_lt_of_le hlt' hx'.blocks⟩
  · show List.Forall₂ _ g.nodes.entries g'.nodes.entries
    rw [hnodes, hnodes']
    exact h.graph.nodes
  · show g.edges.entries.map Prod.snd = g'.edges.entries.map Prod.snd
    rw [hedges, hedges']
    exact h.graph.edges
  · exact hx.graph.root.trans (h.graph.root.trans hx'.graph.root.symm)

/-- States correspond inside of one provider call, in the blocks that it opens. -/
theorem State.Corresponds.enter (h : s.Corresponds pairs s') (args : List TypeExpr) :
    (s.opened args).Corresponds (paired pairs s.graph.blocks s'.graph.blocks) (s'.opened args) := by
  have hle := le_paired pairs s.graph.blocks s'.graph.blocks
  refine ⟨paired_unique h.unique h.opened, ?_, ⟨?_, h.graph.edges, h.graph.root⟩, ?_, ?_⟩
  · rintro b b' (hb | ⟨rfl, rfl⟩)
    · obtain ⟨hlt, hlt'⟩ := h.opened b b' hb
      exact ⟨Nat.lt_succ_of_lt hlt, Nat.lt_succ_of_lt hlt'⟩
    · exact ⟨Nat.lt_succ_self _, Nat.lt_succ_self _⟩
  · exact (h.graph.mono hle).nodes
  · exact h.shared.imp fun _ _ he => ⟨he.1.mono hle, he.2⟩
  · simp only [State.opened]
    rw [← List.map_reverse, ← List.map_reverse]
    refine List.rel_append ?_ (h.arguments.imp fun a a' ha =>
      ⟨ha.1, ha.2.imp_left fun hsource => hsource.mono hle⟩)
    rw [List.forall₂_map_left_iff, List.forall₂_map_right_iff, List.forall₂_same]
    exact fun a _ => ⟨rfl, .inl (.argument a.2 (.inr ⟨rfl, rfl⟩))⟩

/-- States correspond again outside of a provider call. -/
theorem State.Corresponds.leave (h : t.Corresponds pairs t')
    (hlength : s.arguments.length = s'.arguments.length) :
    (t.closed s).Corresponds pairs (t'.closed s') := by
  refine ⟨h.unique, h.opened, h.graph, h.shared, ?_⟩
  simp only [State.closed, ← hlength, ← h.arguments.length_eq]
  exact List.forall₂_drop _ h.arguments

/-- The first argument of a type gets the same node in both builds. -/
theorem bindArgument_same {as as' : List Argument}
    (h : List.Forall₂ (Argument.Same pairs) as as') (type : TypeExpr) (n : NodeId) :
    List.Forall₂ (Argument.Same pairs) (bindArgument type (.node n) as)
      (bindArgument type (.node n) as') := by
  induction h with
  | nil => exact .nil
  | cons ha hrest ih =>
    rw [bindArgument, bindArgument, ← ha.1]
    split
    · exact .cons ⟨rfl, .node n⟩ hrest
    · exact .cons ha ih

end State

namespace Query

variable {q q' : Query}

/-- Whether the node of a visible argument was taken back when a query is asked. -/
def Bereft (q : Query) : Prop := ∃ a ∈ q.state.arguments, a.IsLost q.state.graph

/-- Whether a query is answered by a remembered failure. -/
def Recalls (resolver : Resolver) (q : Query) : Prop :=
  ∃ issues, q.verdict resolver = .ok (.recalled issues)

/-- Queries correspond as they are seen. -/
theorem Corresponds.seen (h : q.Corresponds pairs q') {see see' : State → State}
    (hsee : Forgetful see) (hsee' : Forgetful see') :
    (q.seen see).Corresponds pairs (q'.seen see') := by
  obtain ⟨failures, -, heq⟩ := hsee q.state
  obtain ⟨failures', -, heq'⟩ := hsee' q'.state
  refine ⟨h.context, h.request, h.timing, h.site, ?_⟩
  show (see q.state).Corresponds pairs (see' q'.state)
  rw [heq, heq']
  exact h.state.of_eq rfl rfl rfl rfl rfl rfl

/-- The arguments of queries that correspond come from the same place, where none lost its node. -/
theorem Corresponds.arguments (h : q.Corresponds pairs q') (hq : ¬ q.Bereft) (hq' : ¬ q'.Bereft) :
    List.Forall₂ (Argument.Same pairs) q.state.arguments q'.state.arguments :=
  same_of_kept h.state.arguments (fun a ha hlost => hq ⟨a, ha, hlost⟩)
    fun a ha hlost => hq' ⟨a, ha, hlost⟩

/-- Queries that correspond are answered by the same arguments, if none lost its node. -/
theorem Corresponds.visible? (h : q.Corresponds pairs q') (hq : ¬ q.Bereft) (hq' : ¬ q'.Bereft) :
    Option.Rel (Argument.Same pairs) q.visible? q'.visible? := by
  unfold Query.visible?
  rw [← h.request]
  split
  · exact find?_rel (h.arguments hq hq') fun a a' ha => by rw [ha.1]
  · exact .none

/-- What is under construction answers queries that correspond alike, for segments that stand for
each other are the present ones in both builds or in none. -/
theorem Corresponds.onPath? (h : q.Corresponds pairs q') (key : Key) (isShared : Bool) :
    Option.Rel (Verdict.Corresponds pairs) (q.onPath? key isShared)
      (q'.onPath? key isShared) := by
  have hframe : Option.Rel (Frame.Corresponds pairs)
      (q.context.path.find? fun f => f.key == key)
      (q'.context.path.find? fun f => f.key == key) :=
    find?_rel h.context.path fun f f' hf => by rw [hf.key]
  unfold Query.onPath?
  rw [← h.timing]
  obtain ⟨hnone, hnone'⟩ | ⟨f, f', hf, hf', hff⟩ := rel_cases hframe
  · rw [hnone, hnone']
    exact .none
  · rw [hf, hf']
    have hsegment : f.segment = q.context.segment ↔ f'.segment = q'.context.segment :=
      Relator.rel_eq h.state.unique hff.segment h.context.segment
    cases q.timing with
    | deferred => exact .some (hff.node ▸ .linked f.node)
    | eager =>
      by_cases hsame : f.segment = q.context.segment
      · simp only [if_pos hsame, if_pos (hsegment.mp hsame)]
        exact .some .loop
      · simp only [if_neg hsame, if_neg (mt hsegment.mpr hsame), ← hff.node]
        split
        · exact .some (.linked f.node)
        · exact .none

/-- A binding is under construction equally often where queries correspond. -/
theorem Corresponds.count_eq (h : q.Corresponds pairs q') (id : BindingId) :
    (q.context.path.filter (Frame.isOf id)).length =
      (q'.context.path.filter (Frame.isOf id)).length :=
  (List.rel_filter (fun f f' hf => by simp only [Frame.isOf, hf.key]) h.context.path).length_eq

/-- Queries that correspond make the value of a binding alike. -/
theorem Corresponds.bindingMaking (h : q.Corresponds pairs q') (id : BindingId) (s : Substitution)
    (r : Registration) :
    (Verdict.make (q.bindingMaking id s r)).Corresponds pairs (.make (q'.bindingMaking id s r)) :=
  .make rfl ⟨h.context.block, .binding id s none, by simp [Query.bindingMaking, h.request]⟩ rfl
    (SharedKey.of?_corresponds h.context.block _ _ _)

/-- Queries that correspond make the value of a wrapper alike. -/
theorem Corresponds.shapeMaking (h : q.Corresponds pairs q') (strategy : Strategy)
    (dependencies : List Dependency) (providerArgs : List TypeExpr) :
    (Verdict.make (q.shapeMaking strategy dependencies providerArgs)).Corresponds pairs
      (.make (q'.shapeMaking strategy dependencies providerArgs)) :=
  .make (by simp [Query.shapeMaking, h.request])
    ⟨h.context.block, .synthesized strategy providerArgs,
      by simp [Query.shapeMaking, h.request, h.site]⟩
    (by simp [Query.shapeMaking, h.site]) .none

/-- What is shared answers queries that correspond alike. -/
theorem Corresponds.shared?_eq (h : q.Corresponds pairs q') (lifetime : Lifetime) (id : BindingId)
    (s : Substitution) :
    ((SharedKey.of? lifetime id s q.context.block).bind fun k => q.state.shared.lookup k) =
      (SharedKey.of? lifetime id s q'.context.block).bind fun k => q'.state.shared.lookup k := by
  obtain ⟨hk, hk'⟩ | ⟨k, k', hk, hk', hkk⟩ :=
    rel_cases (SharedKey.of?_corresponds h.context.block lifetime id s)
  · rw [hk, hk']
    rfl
  · rw [hk, hk', Option.bind_some, Option.bind_some]
    exact lookup_shared h.state.unique h.state.shared hkk

/-- What becomes of queries that correspond and are for one binding. Of what the builds remember it
counts only that it answers neither. -/
theorem Corresponds.bindingVerdict (h : q.Corresponds pairs q') {id : BindingId} {s : Substitution}
    {r : Registration} (hq : ∀ issues, q.bindingVerdict id s r ≠ .recalled issues)
    (hq' : ∀ issues, q'.bindingVerdict id s r ≠ .recalled issues) :
    (q.bindingVerdict id s r).Corresponds pairs (q'.bindingVerdict id s r) := by
  have hcount := h.count_eq id
  have hshared := h.shared?_eq r.lifetime id s
  unfold Query.bindingVerdict at hq hq' ⊢
  obtain ⟨hpath, hpath'⟩ | ⟨v, v', hpath, hpath', hv⟩ :=
    rel_cases (h.onPath? (.binding id s) (r.lifetime != .transient))
  · simp only [hpath, hpath', ← hcount, ← hshared] at hq hq' ⊢
    split
    · next hfew =>
      rw [if_pos hfew] at hq hq'
      split
      · next n hn => exact .linked n
      · next hn =>
        simp only [hn] at hq hq'
        cases hf : q.state.failures.lookup (.binding id s) with
        | some issues => exact absurd (by rw [hf]) (hq issues)
        | none =>
          cases hf' : q'.state.failures.lookup (.binding id s) with
          | some issues => exact absurd (by rw [hf']) (hq' issues)
          | none => exact h.bindingMaking id s r
    · exact .loop
  · rw [hpath, hpath']
    exact hv

/-- Queries that correspond have verdicts that correspond, unless the node of an argument was taken
back or one of them is answered by a remembered failure. -/
theorem Corresponds.verdict (h : q.Corresponds pairs q') (hkept : ¬ q.Bereft) (hkept' : ¬ q'.Bereft)
    (hq : ¬ q.Recalls resolver) (hq' : ¬ q'.Recalls resolver) :
    (∃ e, q.verdict resolver = .error e ∧ q'.verdict resolver = .error e) ∨
      ∃ v v', q.verdict resolver = .ok v ∧ q'.verdict resolver = .ok v' ∧
        v.Corresponds pairs v' := by
  unfold Recalls at hq hq'
  unfold Query.verdict at hq hq' ⊢
  obtain ⟨hnone, hnone'⟩ | ⟨a, a', ha, ha', haa⟩ := rel_cases (h.visible? hkept hkept')
  · simp only [hnone, hnone', ← h.request] at hq hq' ⊢
    cases hres : resolver.resolve q.request with
    | unresolved => exact .inr ⟨_, _, rfl, rfl, .unresolved⟩
    | binding id s =>
      simp only [hres] at hq hq' ⊢
      cases hr : resolver.table.bindings[id]? with
      | none => exact .inl ⟨_, rfl, rfl⟩
      | some r =>
        simp only [hr] at hq hq' ⊢
        exact .inr ⟨_, _, rfl, rfl, h.bindingVerdict (fun issues heq => hq ⟨issues, by rw [heq]⟩)
          fun issues heq => hq' ⟨issues, by rw [heq]⟩⟩
    | synthesized strategy dependencies providerArgs =>
      refine .inr ⟨_, _, rfl, rfl, ?_⟩
      obtain ⟨hpath, hpath'⟩ | ⟨v, v', hpath, hpath', hv⟩ :=
        rel_cases (h.onPath? (.contract q.request.contract) false)
      · rw [hpath, hpath']
        exact h.shapeMaking strategy dependencies providerArgs
      · rw [hpath, hpath']
        exact hv
  · rw [ha, ha']
    exact .inr ⟨_, _, rfl, rfl, .argument haa⟩

end Query

/-- An argument that is seen to have lost its node has lost it. -/
theorem Forgetful.bereft {see : State → State} (h : Forgetful see) {q : Query}
    (hq : (q.seen see).Bereft) : q.Bereft := by
  obtain ⟨failures, -, heq⟩ := h q.state
  simpa only [Query.Bereft, Query.seen, heq] using hq

end Wiring

end Injector
