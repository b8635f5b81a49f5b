import Injector.Proofs.Graph.Consistency
import Injector.Proofs.Wiring.Outcome

/-!
# States that extend others

A state is consistent when its graph is and the numbers it remembers stand for the nodes they are
remembered for. Building extends states: it only adds to the graph, the shared instances and the
issues. The main statement is that a state can be taken back to any that it extends, which restores
these three and leaves the rest as it became.
-/

namespace Injector

/-- Whether a node is what a request asks for: an argument of a provider call of the very type, the
binding that resolution finds under the choices it makes, or a value of the shape it finds. -/
def Resolver.Accepts (resolver : Resolver) (request : Request) (node : Node) : Prop :=
  match node.origin with
  | .argument _ _ =>
      request.pin = none ∧ request.contract.tag = none ∧ node.contract = request.contract
  | .binding id s _ => resolver.resolve request = .binding id s
  | .synthesized strategy providerArgs =>
      node.contract = request.contract ∧
        ∃ dependencies, resolver.resolve request = .synthesized strategy dependencies providerArgs

instance (resolver : Resolver) (request : Request) (node : Node) :
    Decidable (resolver.Accepts request node) :=
  match h : node.origin with
  | .argument _ _ =>
      decidable_of_iff
        (request.pin = none ∧ request.contract.tag = none ∧ node.contract = request.contract)
        (by simp [Resolver.Accepts, h])
  | .binding id s _ =>
      decidable_of_iff (resolver.resolve request = .binding id s) (by simp [Resolver.Accepts, h])
  | .synthesized strategy providerArgs =>
      match hres : resolver.resolve request with
      | .synthesized found _ args =>
          decidable_of_iff
            (node.contract = request.contract ∧ found = strategy ∧ args = providerArgs)
            (by simp [Resolver.Accepts, h, hres])
      | .binding _ _ | .unresolved => isFalse (by simp [Resolver.Accepts, h, hres])

namespace Wiring

/-- Whether a node is made for what a key stands for. -/
def Key.Matches (resolver : Resolver) (node : Node) : Key → Prop
  | .binding id s => ∃ constructor, node.origin = .binding id s constructor
  | .contract c => node.contract = c ∧ ∃ pin strategy dependencies providerArgs,
      resolver.resolve ⟨c, pin⟩ = .synthesized strategy dependencies providerArgs ∧
        node.origin = .synthesized strategy providerArgs

/-- Whether a number stands in a graph for a node that is made for what a key stands for. -/
def Key.StandsFor (resolver : Resolver) (g : Graph) (key : Key) (n : NodeId) : Prop :=
  g.Has n fun node => key.Matches resolver node

/-- The key under which a node is shared, if it has one. -/
def SharedKey.ofNode? (node : Node) : Option SharedKey :=
  match node.origin with
  | .binding id s _ => SharedKey.of? node.lifetime id s node.block
  | _ => none

/-- Whether a state has a consistent graph and remembers what holds of it. -/
structure State.Consistent (resolver : Resolver) (s : State) : Prop where
  /-- The graph is consistent. -/
  graph : s.graph.Consistent
  /-- Its nodes are numbered like a stack. -/
  stacked : s.graph.nodes.Stacked
  /-- Each block has a segment of its own, besides that of the root. -/
  segments : s.nextSegment = s.graph.blocks
  /-- Nodes are made for bindings of the table. -/
  known : s.graph.Knows resolver.table
  /-- Shared instances are nodes with the keys under which they are shared. -/
  shared : ∀ k ∈ s.shared, s.graph.Has k.2 fun node => SharedKey.ofNode? node = some k.1
  /-- A failure is remembered with its issues. -/
  failures : ∀ f ∈ s.failures, f.2 ≠ []

/-- Whether an argument stays as it is, or is noted to have a node that is not in a graph. -/
def Argument.Becomes (g : Graph) (a a' : Argument) : Prop :=
  a' = a ∨ a'.type = a.type ∧ ∃ n, a'.source = .node n ∧ n ∉ g.nodes.taken

/-- Whether a state has all that was built and found in another, unchanged. -/
structure State.Extends (s s' : State) : Prop where
  /-- Nodes and edges are only added. -/
  graph : s.graph.Extends s'.graph
  /-- Blocks are only added. -/
  blocks : s.graph.blocks ≤ s'.graph.blocks
  /-- Shared instances are only added. -/
  shared : s.shared <:+ s'.shared
  /-- The same arguments are visible, and may have got nodes. -/
  arguments : List.Forall₂ (Argument.Becomes s.graph) s.arguments s'.arguments
  /-- Issues are only added. -/
  issues : s.issues <+: s'.issues

/-- Whether a state has the nodes, edges and shared instances of another, also inside provider calls
that were opened since. -/
structure State.Precedes (s s' : State) : Prop where
  /-- Nodes and edges are only added. -/
  graph : s.graph.Extends s'.graph
  /-- Blocks are only added. -/
  blocks : s.graph.blocks ≤ s'.graph.blocks
  /-- Shared instances are only added. -/
  shared : s.shared <:+ s'.shared

/-- Whether the numbers of what is under construction are those of its nodes. -/
def Context.Placed (resolver : Resolver) (context : Context) (g : Graph) : Prop :=
  ∀ f ∈ context.path, f.key.StandsFor resolver g f.node

/-- Whether a query can be asked on the way from a root, in a state that can be reached there. -/
structure Query.Proper (resolver : Resolver) (q : Query) : Prop extends q.Admissible resolver where
  /-- The state is consistent. -/
  consistent : q.state.Consistent resolver
  /-- What is under construction has its nodes. -/
  placed : q.context.Placed resolver q.state.graph

/-- Whether a state comes from one that extends what was there when the work for a value began: at
most a constructor was noted at the node of the value. -/
def State.Follows (resolver : Resolver) (node : NodeId) (s s' : State) : Prop :=
  ∃ s₁, s.Extends s₁ ∧ s₁.Consistent resolver ∧ (s' = s₁ ∨ ∃ index g,
    s₁.graph.modifyNode node (chosen index) = .ok g ∧ s' = { s₁ with graph := g })

variable {resolver : Resolver}

/-- What became of an argument in two stages became of it in all. -/
theorem Argument.Becomes.trans {g g' : Graph} (hg : g.Extends g') {a a' a'' : Argument}
    (h : a.Becomes g a') (h' : a'.Becomes g' a'') : a.Becomes g a'' := by
  rcases h' with rfl | ⟨htype', n, hsource, hn⟩
  · exact h
  · refine .inr ⟨?_, n, hsource, fun hmem => hn (hg.mem_taken hmem)⟩
    rcases h with rfl | ⟨htype, -⟩
    · exact htype'
    · exact htype'.trans htype

/-- A node answers to its key whichever constructor is noted for it. -/
theorem Key.Matches.chosen {key : Key} {node : Node} (index : Nat)
    (h : key.Matches resolver node) : key.Matches resolver (chosen index node) := by
  cases key with
  | binding id s =>
    obtain ⟨c, hc⟩ := h
    exact ⟨some index, by simp [Wiring.chosen, hc]⟩
  | contract c =>
    obtain ⟨hcontract, pin, strategy, deps, args, hres, ho⟩ := h
    exact ⟨by simp [Wiring.chosen, ho, hcontract], pin, strategy, deps, args, hres,
      by simp [Wiring.chosen, ho]⟩

/-- What is shared is recognised by its binding under its choices. -/
theorem SharedKey.of?_eq_some {lifetime : Lifetime} {id : BindingId} {s : Substitution}
    {block : BlockId} {k : SharedKey} (h : SharedKey.of? lifetime id s block = some k) :
    k.binding = id ∧ k.substitution = s := by
  unfold SharedKey.of? at h
  split at h <;> cases h <;> exact ⟨rfl, rfl⟩

/-- A node that is shared is one of the binding. -/
theorem SharedKey.exists_origin {node : Node} {k : SharedKey} (h : ofNode? node = some k) :
    ∃ constructor, node.origin = .binding k.binding k.substitution constructor := by
  unfold ofNode? at h
  split at h
  · next id s constructor ho =>
    obtain ⟨rfl, rfl⟩ := of?_eq_some h
    exact ⟨constructor, ho⟩
  · cases h

@[simp] theorem SharedKey.ofNode?_chosen (index : Nat) (node : Node) :
    ofNode? (chosen index node) = ofNode? node := by
  unfold chosen
  split
  · next ho => simp only [ofNode?, ho]
  · rfl

/-- A node comes from the same binding before a constructor is noted for it. -/
theorem origin_of_chosen {index : Nat} {node : Node} {id : BindingId} {s : Substitution}
    {constructor : Option Nat} (h : (chosen index node).origin = .binding id s constructor) :
    ∃ constructor', node.origin = .binding id s constructor' := by
  unfold chosen at h
  split at h
  · next b t c ho =>
    cases h
    exact ⟨c, ho⟩
  · exact ⟨constructor, h⟩

/-- Noting a constructor at a node does not change what it is made for. -/
theorem accepts_chosen (request : Request) (node : Node) (index : Nat) :
    resolver.Accepts request (chosen index node) ↔ resolver.Accepts request node := by
  unfold chosen
  cases ho : node.origin <;> simp [Resolver.Accepts, ho]

/-- A query is placed in what extends the graph it is placed in. -/
theorem Context.Placed.of_extends {context : Context} {g g' : Graph}
    (h : context.Placed resolver g) (hx : g.Extends g') (hg : g.Consistent)
    (hg' : g'.Consistent) : context.Placed resolver g' :=
  fun f hf => (h f hf).of_extends hx hg hg'

namespace State

/-- Nothing may become of the arguments. -/
theorem becomes_refl (g : Graph) (arguments : List Argument) :
    List.Forall₂ (Argument.Becomes g) arguments arguments :=
  List.forall₂_same.mpr fun _ _ => .inl rfl

/-- A state extends itself. -/
theorem Extends.refl (s : State) : s.Extends s :=
  ⟨.refl _, Nat.le_refl _, List.suffix_refl _, becomes_refl _ _, List.prefix_refl _⟩

/-- A graph of the same numbers can stand in for that of a state. -/
theorem Extends.withGraph {s s' : State} (h : s.Extends s') {g : Graph}
    (hg : s.graph.Extends g) (hblocks : g.blocks = s'.graph.blocks) :
    s.Extends { s' with graph := g } :=
  ⟨hg, hblocks ▸ h.blocks, h.shared, h.arguments, h.issues⟩

/-- What became of the arguments in two stages became of them in all. -/
theorem becomes_trans {g g' : Graph} (hg : g.Extends g') {as bs cs : List Argument}
    (h : List.Forall₂ (Argument.Becomes g) as bs) (h' : List.Forall₂ (Argument.Becomes g') bs cs) :
    List.Forall₂ (Argument.Becomes g) as cs := by
  induction h generalizing cs with
  | nil =>
    cases h'
    exact .nil
  | cons hhere _ ih =>
    cases h' with
    | cons hhere' h' => exact .cons (hhere.trans hg hhere') (ih h')

/-- What extends an extension of a state extends the state. -/
theorem Extends.trans {s s' s'' : State} (h : s.Extends s') (h' : s'.Extends s'') :
    s.Extends s'' :=
  ⟨h.graph.trans h'.graph, Nat.le_trans h.blocks h'.blocks, h.shared.trans h'.shared,
    becomes_trans h.graph h.arguments h'.arguments,
    h.issues.trans h'.issues⟩

/-- A state precedes those that extend it. -/
theorem Extends.precedes {s s' : State} (h : s.Extends s') : s.Precedes s' :=
  ⟨h.graph, h.blocks, h.shared⟩

theorem Precedes.refl (s : State) : s.Precedes s := (Extends.refl s).precedes

/-- A state precedes what later states precede. -/
theorem Precedes.trans {s s' s'' : State} (h : s.Precedes s') (h' : s'.Precedes s'') :
    s.Precedes s'' :=
  ⟨h.graph.trans h'.graph, Nat.le_trans h.blocks h'.blocks, h.shared.trans h'.shared⟩

/-- A state precedes the one in which a provider call is opened. -/
theorem precedes_opened (s : State) (args : List TypeExpr) : s.Precedes (s.opened args) :=
  ⟨s.graph.extends_addBlock, Nat.le_succ _, List.suffix_refl _⟩

/-- As many arguments are visible in a state as in one that extends it. -/
theorem Extends.length_arguments {s s' : State} (h : s.Extends s') :
    s'.arguments.length = s.arguments.length := h.arguments.length_eq.symm

/-- An argument that is not used yet was visible before. -/
theorem mem_of_becomes {g : Graph} {as bs : List Argument}
    (h : List.Forall₂ (Argument.Becomes g) as bs) {a : Argument} {block : BlockId} {index : Nat}
    (ha : a ∈ bs) (hsource : a.source = .argument block index) : a ∈ as := by
  induction h with
  | nil => cases ha
  | cons hhere _ ih =>
    rcases List.mem_cons.mp ha with rfl | ha
    · rcases hhere with rfl | ⟨-, n, hnode, -⟩
      · exact List.mem_cons_self
      · cases hsource.symm.trans hnode
    · exact List.mem_cons_of_mem _ (ih ha)

/-- A state is consistent with another graph that has the nodes of its own. -/
theorem Consistent.withGraph {s : State} (h : s.Consistent resolver) {g : Graph}
    (hx : s.graph.Extends g) (hg : g.Consistent) (hstacked : g.nodes.Stacked)
    (hblocks : g.blocks = s.graph.blocks) (hn : g.nodes.entries = s.graph.nodes.entries) :
    { s with graph := g }.Consistent resolver :=
  ⟨hg, hstacked, h.segments.trans hblocks.symm, fun e he => h.known e (hn ▸ he),
    fun k hk => (h.shared k hk).of_extends hx h.graph hg, h.failures⟩

/-- A state stays consistent when a node is added that is made for a binding of the table, if for
any. -/
theorem Consistent.addNode {s : State} (h : s.Consistent resolver) {content : Node}
    (hcontent : ∀ id t constructor, content.origin = .binding id t constructor →
      id < resolver.table.bindings.length) :
    { s with graph := s.graph.addNode content }.Consistent resolver := by
  have hg := h.graph.addNode content
  exact ⟨hg, h.stacked.add content, h.segments, h.known.addNode hcontent,
    fun k hk => (h.shared k hk).of_extends (s.graph.extends_addNode content) h.graph hg, h.failures⟩

/-- Issues can be added to a state. -/
theorem extends_complained (s : State) (issues : List Issue) :
    s.Extends { s with issues := s.issues ++ issues } :=
  ⟨.refl _, Nat.le_refl _, List.suffix_refl _, becomes_refl _ _, List.prefix_append _ _⟩

/-- Issues do not matter to consistency. -/
theorem Consistent.complained {s : State} (h : s.Consistent resolver) (issues : List Issue) :
    { s with issues := issues }.Consistent resolver :=
  ⟨h.graph, h.stacked, h.segments, h.known, h.shared, h.failures⟩

/-- A state in which a loop is told of extends the one before. -/
theorem extends_looping (s : State) (members : List String) (path : String)
    (location : Location) : s.Extends (s.looping members path location) := by
  refine ⟨.refl _, Nat.le_refl _, List.suffix_refl _, becomes_refl _ _, ?_⟩
  simp only [State.looping]
  split
  · exact List.prefix_append _ _
  · exact List.prefix_refl _

/-- Telling of a loop keeps a state consistent. -/
theorem Consistent.looping {s : State} (h : s.Consistent resolver) (members : List String)
    (path : String) (location : Location) :
    (s.looping members path location).Consistent resolver :=
  ⟨h.graph, h.stacked, h.segments, h.known, h.shared, h.failures⟩

/-- Noting a node to be shared adds nothing to the graph. -/
theorem Extends.sharing {s s' : State} (h : s.Extends s') (key : Option SharedKey) (n : NodeId) :
    s.Extends (s'.sharing key n) := by
  cases key with
  | none => exact h
  | some k =>
    exact ⟨h.graph, h.blocks, h.shared.trans (List.suffix_cons _ _), h.arguments, h.issues⟩

/-- What is shared has to be a node with the key. -/
theorem Consistent.sharing {s : State} (h : s.Consistent resolver) {key : Option SharedKey}
    {n : NodeId} (hn : s.graph.Has n fun node => SharedKey.ofNode? node = key) :
    (s.sharing key n).Consistent resolver := by
  cases key with
  | none => exact h
  | some k =>
    exact ⟨h.graph, h.stacked, h.segments, h.known,
      List.forall_mem_cons.mpr ⟨hn, h.shared⟩, h.failures⟩

/-- A failure that lasts has issues. -/
theorem ne_nil_of_isLasting {arguments : List Argument} {issues : List Issue}
    (h : isLasting arguments issues = true) : issues ≠ [] := by
  rintro rfl
  simp [isLasting] at h

/-- Noting a failure adds nothing to the graph. -/
theorem Extends.failing {s s' : State} (h : s.Extends s') (key : Key) (issues : List Issue) :
    s.Extends (s'.failing key issues) := by
  unfold State.failing
  split
  · split <;> exact ⟨h.graph, h.blocks, h.shared, h.arguments, h.issues⟩
  · exact h

/-- Noting a failure keeps a state consistent. -/
theorem Consistent.failing {s : State} (h : s.Consistent resolver) (key : Key)
    (issues : List Issue) : (s.failing key issues).Consistent resolver := by
  unfold State.failing
  split
  · split
    · next hlasting =>
      exact ⟨h.graph, h.stacked, h.segments, h.known, h.shared,
        List.forall_mem_cons.mpr ⟨ne_nil_of_isLasting hlasting, h.failures⟩⟩
    · exact h
  · exact h

/-- A state in a provider call is consistent, and what extends it extends, without the arguments of
the call, the state outside. -/
theorem Consistent.opened {s : State} (h : s.Consistent resolver) (args : List TypeExpr) :
    (s.opened args).Consistent resolver :=
  ⟨h.graph.addBlock, h.stacked, congrArg (· + 1) h.segments, h.known,
    fun k hk => (h.shared k hk).of_extends s.graph.extends_addBlock h.graph h.graph.addBlock,
    h.failures⟩

/-- What extends the state of a provider call extends the one in which it was opened, once it is
closed. -/
theorem Extends.closed {s s' : State} {args : List TypeExpr} (h : (s.opened args).Extends s') :
    s.Extends (s'.closed s) := by
  refine ⟨s.graph.extends_addBlock.trans h.graph, Nat.le_of_succ_le h.blocks, h.shared, ?_,
    h.issues⟩
  have hlength : s'.arguments.length = args.length + s.arguments.length := by
    rw [h.length_arguments]
    simp [opened]
  have hdrop : s'.arguments.length - s.arguments.length = args.length := by omega
  have hinner := List.forall₂_drop args.length h.arguments
  rw [opened, List.drop_left' (by simp)] at hinner
  rw [State.closed, hdrop]
  exact hinner

/-- Closing a provider call keeps a state consistent. -/
theorem Consistent.closed {s outer : State} (h : s.Consistent resolver) :
    (s.closed outer).Consistent resolver :=
  ⟨h.graph, h.stacked, h.segments, h.known, h.shared, h.failures⟩

/-- An argument that gets a node gets one that was not there. -/
theorem becomes_bindArgument {g : Graph} {n : NodeId} (hn : n ∉ g.nodes.taken) (type : TypeExpr)
    (arguments : List Argument) : List.Forall₂ (Argument.Becomes g) arguments
      (bindArgument type (.node n) arguments) := by
  induction arguments with
  | nil => exact .nil
  | cons a rest ih =>
    rw [bindArgument]
    split
    · exact .cons (.inr ⟨rfl, n, rfl, hn⟩) (becomes_refl _ _)
    · exact .cons (.inl rfl) ih

/-- A state after it is taken back to an earlier one, with the graph that taking back gave. -/
def restored (s earlier : State) (g : Graph) : State :=
  { s with graph := g, shared := earlier.shared, issues := earlier.issues }

/-- Taking a state back to one that it extends restores the nodes and edges, the shared instances
and the issues, and leaves the rest as it became. -/
theorem Extends.rollback {s s' : State} (hx : s.Extends s') (h : s.Consistent resolver)
    (h' : s'.Consistent resolver) :
    ∃ g, Wiring.rollback s.mark s' = .ok (s'.issues.drop s.issues.length, s'.restored s g) ∧
      s.Extends (s'.restored s g) ∧ (s'.restored s g).Consistent resolver ∧
      g.nodes.entries = s.graph.nodes.entries ∧ g.edges.entries = s.graph.edges.entries := by
  obtain ⟨g, hg, hc, hnodes, hedges, hroot, hblocks, hstacked⟩ :=
    hx.graph.rollback h.graph h'.graph
  have hextends : s.graph.Extends g :=
    ⟨hnodes ▸ List.suffix_refl _, hedges ▸ List.suffix_refl _, hroot⟩
  have hshared : ∀ k ∈ s.shared, g.Has k.2 fun node => SharedKey.ofNode? node = some k.1 :=
    fun k hk => (h.shared k hk).of_extends hextends h.graph hc
  refine ⟨g, ?_, ⟨hextends, hblocks ▸ hx.blocks, List.suffix_refl _, hx.arguments,
    List.prefix_refl _⟩, ⟨hc, hstacked h'.stacked, h'.segments.trans hblocks.symm,
    fun e he => h.known e (hnodes ▸ he), hshared, h'.failures⟩, hnodes, hedges⟩
  have hshared : s'.shared.drop (s'.shared.length - s.shared.length) = s.shared :=
    (List.suffix_iff_eq_drop.mp hx.shared).symm
  have hissues : s'.issues.take s.issues.length = s.issues :=
    (List.prefix_iff_eq_take.mp hx.issues).symm
  simp only [Wiring.rollback, State.mark, restored, bind_apply, get_apply, lift_apply, set_apply,
    pure_apply, ok_bind, hg, Except.map, hshared, hissues]

end State

end Wiring

end Injector
