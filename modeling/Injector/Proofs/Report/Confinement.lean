import Injector.Proofs.Report.Resolved
import Injector.Proofs.Wiring.Blocks

/-!
# What depends on the arguments of a provider call

The arguments of a provider call are known when the call is made. What is made before, or is made
once for several calls, must not depend on them: every path to an argument should go through the
edge that opens the block of the call. The main statement is that the paths from a resolved root do
so exactly when those do that begin at a node which is used again outside of the block, as a shared
instance or as the node of another argument. Nothing else lets an argument escape.
-/

namespace Injector

namespace Graph

variable {g : Graph}

/-- Whether edges lead from a node to another, one after the other. -/
inductive Path (g : Graph) : NodeId → List Edge → NodeId → Prop
  /-- No edge is needed. -/
  | nil (n : NodeId) : Path g n [] n
  /-- An edge comes before a path. -/
  | cons {e : Edge} {es : List Edge} {n : NodeId} (edge : g.HasEdge e)
      (rest : Path g e.target es n) : Path g e.source (e :: es) n

theorem Path.append {n m k : NodeId} {es es' : List Edge} (h : g.Path n es m)
    (h' : g.Path m es' k) : g.Path n (es ++ es') k := by
  induction h with
  | nil n => exact h'
  | cons edge rest ih => exact .cons edge (ih h')

/-- Whether a number stands for an argument of the provider call that opened a block. -/
def IsArgument (g : Graph) (block : BlockId) (n : NodeId) : Prop :=
  g.Has n fun node => ∃ index, node.origin = .argument block index

/-- Whether every path from a node to an argument of a block goes through an edge that opens it. -/
def Guards (g : Graph) (opens : Edge → Prop) (block : BlockId) (n : NodeId) : Prop :=
  ∀ es k, g.Path n es k → g.IsArgument block k → ∃ e ∈ es, opens e

end Graph

namespace Wiring

/-- Whether an edge is that of the call by which a block is opened on the way from a root. -/
def Opens (resolver : Resolver) (root : Table.Root) (cycles : CycleLog) (block : BlockId)
    (e : Edge) : Prop :=
  ∃ d c n, (Query.ofRoot root cycles).Connects resolver d c n ∧ c.Opens block ∧
    e = c.link.wire.edge d.nodeNumber n

/-- Whether every path in the graph of a root from the root to an argument of a provider call goes
through the edge that opens the block of the call. -/
def Confined (resolver : Resolver) (root : Table.Root) (cycles : CycleLog) (g : Graph) : Prop :=
  ∀ block, ∀ start ∈ g.root, g.Guards (Opens resolver root cycles block) block start

/-- Whether a query is answered by a node that was completed before: a shared instance, or the node
of an argument that was used. -/
def Query.Reuses (resolver : Resolver) (q : Query) (n : NodeId) : Prop :=
  (q.verdict resolver = .ok (.linked n) ∧ ∃ k, (k, n) ∈ q.state.shared) ∨
    ∃ type, q.visible? = some ⟨type, .node n⟩

variable {resolver : Resolver} {root : Table.Root} {cycles : CycleLog} {b : RootBuild}

namespace Query

variable {q : Query} {n : NodeId} {s : State}

/-- An answer is a node that the query creates, one that is under construction, or one that is used
again. -/
theorem answer_cases (hq : q.Proper resolver) (h : q.outcome resolver = .ok (some n, s)) :
    (n = q.nodeNumber ∧ ∃ node, q.Creates resolver node) ∨ (∃ f ∈ q.context.path, n = f.node) ∨
      q.Reuses resolver n := by
  rcases creates_or_finds hq h with hcreates | hv | hvisible
  · exact .inl hcreates
  · cases verdict_grounds hv with
    | binding hres hpath => exact .inr (.inl ⟨_, hpath, rfl⟩)
    | shared hres hkey hknown => exact .inr (.inr (.inl ⟨hv, _, hknown⟩))
    | shape hres hpath => exact .inr (.inl ⟨_, hpath, rfl⟩)
  · exact .inr (.inr (.inr hvisible))

theorem Reuses.finds (h : q.Reuses resolver n) : q.Finds resolver n := h.imp_left And.left

end Query

section Resolved

variable (h : buildRoot resolver root cycles = .ok b) (hresolved : b.isResolved = true)

include h hresolved

/-- A block is opened by an edge of its own, a deferred one that leaves the value of a shape. -/
theorem opens_edge {block : BlockId} {e : Edge} (he : Opens resolver root cycles block e) :
    b.graph.HasEdge e ∧ e.timing = .deferred ∧
      (b.graph.Has e.source fun node => ∃ strategy providerArgs,
        node.origin = .synthesized strategy providerArgs) ∧
      ∀ e', Opens resolver root cycles block e' → e' = e := by
  have hroot := Query.ofRoot_proper resolver root cycles
  obtain ⟨d, c, n, hconnects, ho, rfl⟩ := he
  obtain ⟨hd, hc, s, hout⟩ := hconnects
  obtain ⟨-, htiming, strategy, dependencies, providerArgs, hm⟩ :=
    (hroot.of_retains hd).1.eq_singleton_of_provides hc ho.1
  have hedge := (buildRoot_hasEdge_iff h hresolved _).mpr ⟨d, c, n, ⟨hd, hc, s, hout⟩, rfl⟩
  refine ⟨hedge, htiming, ?_, ?_⟩
  · refine (has_of_creates h hresolved hd (.value hm)).mono fun node hcreates => ?_
    exact ⟨strategy, providerArgs, hcreates.origin_eq_synthesized hm⟩
  · rintro e' ⟨d', c', n', ⟨hd', hc', s', hout'⟩, ho', rfl⟩
    obtain ⟨_, s₀, -, hbuilt, -⟩ := buildRoot_resolved h hresolved
    obtain ⟨rfl, rfl⟩ := Query.eq_of_opens hroot hbuilt hd hd' hc hc' ho ho'
    cases hout.symm.trans hout'
    rfl

/-- An edge that leaves what a query created on the way is that of a call for the value of the
query. -/
theorem exists_call_of_edge {d : Query} (hd : (Query.ofRoot root cycles).Retains resolver d)
    {node : Node} (hc : d.Creates resolver node) {e : Edge} (he : b.graph.HasEdge e)
    (hsource : e.source = d.nodeNumber) :
    ∃ c n, (Query.ofRoot root cycles).Connects resolver d c n ∧
      e = c.link.wire.edge d.nodeNumber n := by
  have hroot := Query.ofRoot_proper resolver root cycles
  obtain ⟨_, s, -, hout, -⟩ := buildRoot_resolved h hresolved
  obtain ⟨d', c, n, hconnects, rfl⟩ := (buildRoot_hasEdge_iff h hresolved e).mp he
  have hd' := hconnects.1
  obtain ⟨m, hm⟩ := ((hroot.of_retains hd').1.of_mem_lastCalls hconnects.2.1).1
  obtain rfl := Query.eq_of_nodeNumber_eq hroot hout hd' hd (.value hm) hc hsource
  exact ⟨c, n, hconnects, rfl⟩

/-- What is created outside of a block leads to an argument of the block only through the edge that
opens it, if what is used again outside does. The argument itself is created only where it is seen,
which is inside of the block. -/
theorem guards_of_creates {block : BlockId}
    (hreuse : ∀ q n, (Query.ofRoot root cycles).RetainsOutside resolver block q →
      q.Reuses resolver n → b.graph.Guards (Opens resolver root cycles block) block n)
    {d : Query} (hd : (Query.ofRoot root cycles).RetainsOutside resolver block d) {node : Node}
    (hcreates : d.Creates resolver node) :
    b.graph.Guards (Opens resolver root cycles block) block d.nodeNumber := by
  have hroot := Query.ofRoot_proper resolver root cycles
  intro es k hpath hk
  generalize hsource : d.nodeNumber = u at hpath
  induction hpath generalizing d node with
  | nil u =>
    obtain ⟨content, hget, index, ho⟩ := hk
    obtain ⟨content', hget', hcontent⟩ := has_of_creates h hresolved hd.retains hcreates
    rw [hsource, hget] at hget'
    cases hget'
    obtain ⟨type, hvisible, -⟩ := hcontent.visible ho
    obtain ⟨-, -, -, hmem⟩ := Query.visible?_eq_some hvisible
    cases hd.mem_arguments hroot hmem rfl
  | @cons e es k edge rest ih =>
    by_cases hopen : Opens resolver root cycles block e
    · exact ⟨e, List.mem_cons_self, hopen⟩
    · obtain ⟨c, n, hconnects, rfl⟩ :=
        exists_call_of_edge h hresolved hd.retains hcreates edge hsource.symm
      obtain ⟨hret, hc, t, hout⟩ := hconnects
      have houtside : (Query.ofRoot root cycles).RetainsOutside resolver block c.query :=
        hd.tail ⟨c, hc, fun ho => hopen ⟨d, c, n, ⟨hret, hc, t, hout⟩, ho, rfl⟩, rfl⟩
      have hproper := (hroot.of_retains houtside.retains).1
      have hrest : ∃ e ∈ es, Opens resolver root cycles block e := by
        rcases Query.answer_cases hproper hout with ⟨hn, content, hcontent⟩ | ⟨f, hf, hn⟩ | hused
        · exact ih houtside hcontent hk hn.symm
        · rcases houtside.exists_of_frame hroot hf with hf | ⟨r, hr, ⟨m, hm⟩, hnode⟩
          · cases hf
          · exact ih hr (.value hm) hk (hnode.symm.trans hn.symm)
        · exact hreuse c.query n houtside hused es k rest hk
      obtain ⟨e, he, ho⟩ := hrest
      exact ⟨e, List.mem_cons_of_mem _ he, ho⟩

/-- What answers a query outside of a block is reached from the root on a path on which the block is
not opened, for a provider call is the only call of its value. -/
theorem exists_path_outside {block : BlockId} {start : NodeId} (hstart : b.graph.root = some start)
    {q : Query} (hq : (Query.ofRoot root cycles).RetainsOutside resolver block q) {n : NodeId}
    {s : State} (hout : q.outcome resolver = .ok (some n, s)) :
    ∃ es, b.graph.Path start es n ∧ ∀ e ∈ es, ¬ Opens resolver root cycles block e := by
  have hroot := Query.ofRoot_proper resolver root cycles
  obtain ⟨s₀, hbuilt, -⟩ := buildRoot_root h
  induction hq generalizing n s with
  | refl =>
    obtain ⟨hanswer, -⟩ := Prod.mk.inj (Except.ok.inj (hbuilt.symm.trans hout))
    obtain rfl : start = n := Option.some.inj (hstart.symm.trans hanswer)
    exact ⟨[], .nil start, by simp⟩
  | @tail d _ hd hstep ih =>
    obtain ⟨c, hc, hopen, rfl⟩ := hstep
    have hretains := Query.RetainsOutside.retains hd
    obtain ⟨m, hm⟩ := ((hroot.of_retains hretains).1.of_mem_lastCalls hc).1
    obtain ⟨k, s', hmade, hvalue⟩ := exists_answer h hresolved hretains
    obtain rfl := hvalue ⟨m, hm⟩
    obtain ⟨es, hpath, hclosed⟩ := ih hmade
    have hedge : b.graph.HasEdge (c.link.wire.edge d.nodeNumber n) :=
      (buildRoot_hasEdge_iff h hresolved _).mpr ⟨d, c, n, ⟨hretains, hc, s, hout⟩, rfl⟩
    refine ⟨es ++ [c.link.wire.edge d.nodeNumber n], hpath.append (.cons hedge (.nil _)), ?_⟩
    refine List.forall_mem_append.mpr ⟨hclosed, List.forall_mem_singleton.mpr ?_⟩
    rintro ⟨d', c', n', ⟨hd', hc', -⟩, ho, heq⟩
    have hproper' := (hroot.of_retains hd').1
    obtain ⟨hsingle, -⟩ := hproper'.eq_singleton_of_provides hc' ho.1
    obtain ⟨m', hm'⟩ := (hproper'.of_mem_lastCalls hc').1
    obtain ⟨_, t, -, hbuilt', -⟩ := buildRoot_resolved h hresolved
    obtain rfl := Query.eq_of_nodeNumber_eq hroot hbuilt' hretains hd' (.value hm) (.value hm')
      (congrArg Edge.source heq)
    rw [hsingle] at hc
    exact hopen (List.mem_singleton.mp hc ▸ ho)

end Resolved

/-- Every path from a resolved root to an argument of a provider call goes through the edge that
opens the block of the call exactly when every path does that begins at a node which a query outside
of the block uses again. -/
theorem confined_iff (h : buildRoot resolver root cycles = .ok b)
    (hresolved : b.isResolved = true) :
    Confined resolver root cycles b.graph ↔
      ∀ block q n, (Query.ofRoot root cycles).RetainsOutside resolver block q →
        q.Reuses resolver n → b.graph.Guards (Opens resolver root cycles block) block n := by
  have hroot := Query.ofRoot_proper resolver root cycles
  obtain ⟨start, hstart⟩ := Option.isSome_iff_exists.mp hresolved
  constructor
  · intro hconfined block q n hq hused es k hpath hk
    obtain ⟨m, s, hout, -⟩ := exists_answer h hresolved hq.retains
    obtain rfl := hused.finds.answer (hroot.of_retains hq.retains).1 hout
    obtain ⟨es₀, hpath₀, hclosed⟩ := exists_path_outside h hresolved hstart hq hout
    obtain ⟨e, he, ho⟩ := hconfined block start hstart _ k (hpath₀.append hpath) hk
    rcases List.mem_append.mp he with he | he
    · exact absurd ho (hclosed e he)
    · exact ⟨e, he, ho⟩
  · intro hreuse block n hn
    obtain ⟨s, hout, -⟩ := buildRoot_root h
    rw [Option.mem_def.mp hn] at hout
    rcases Query.answer_cases hroot hout with ⟨rfl, node, hcreates⟩ | ⟨f, hf, -⟩ | hused
    · exact guards_of_creates h hresolved (hreuse block) .refl hcreates
    · cases hf
    · exact hreuse block _ n .refl hused

/-- A service that needs a provider of a part, to which a number is given, and after it the part
itself. Instances are kept for the resolution. -/
def escapingArgument : Setup :=
  { Setup.sample [("IR", "R", [[.named "Func" [.named "int" [], .named "IS" []],
      .named "IS" []]]), ("IS", "Sv", [[.named "int" []]])] ["IR"] with
    defaultLifetime := some .perResolve }

/-- The part is made in the provider call and used again outside of it: it depends on the number,
and no edge on the way to the number is deferred. -/
theorem escapingArgument_path :
    ∃ b, buildRoot (.ofSetup escapingArgument) escapingArgument.firstRoot .empty = .ok b ∧
      b.isResolved = true ∧ ∃ start es k, b.graph.root = some start ∧
        b.graph.Path start es k ∧ b.graph.IsArgument 1 k ∧ ∀ e ∈ es, e.timing = .eager := by
  have hbuilt : ((buildRoot (.ofSetup escapingArgument) escapingArgument.firstRoot
      .empty).toOption.any fun b => b.isResolved && b.graph.edges.entries.any fun e =>
        b.graph.root == some e.2.source && e.2.timing == .eager &&
          b.graph.edges.entries.any fun e' => e'.2.source == e.2.target &&
            e'.2.timing == .eager && decide (b.graph.Has e'.2.target fun node =>
              node.origin = .argument 1 0)) = true := by decide +kernel
  obtain ⟨b, hb, hfacts⟩ := any_toOption.mp hbuilt
  obtain ⟨hresolved, hedges⟩ := Bool.and_eq_true_iff.mp hfacts
  obtain ⟨⟨i, e⟩, he, hfirst⟩ := List.any_eq_true.mp hedges
  simp only [Bool.and_eq_true, beq_iff_eq] at hfirst
  obtain ⟨⟨hroot, htiming⟩, hnext⟩ := hfirst
  obtain ⟨⟨j, e'⟩, he', hsecond⟩ := List.any_eq_true.mp hnext
  simp only [Bool.and_eq_true, beq_iff_eq, decide_eq_true_eq] at hsecond
  obtain ⟨⟨hsource, htiming'⟩, hargument⟩ := hsecond
  refine ⟨b, hb, hresolved, e.source, [e, e'], e'.target, hroot, .cons ⟨i, he⟩ ?_, ?_, ?_⟩
  · rw [← hsource]
    exact .cons ⟨j, he'⟩ (.nil _)
  · exact hargument.mono fun node ho => ⟨0, ho⟩
  · simp [htiming, htiming']

/-- Outside of the provider call a query uses a node again that leads to the number on a path on
which the block of the call is not opened. -/
theorem confined_iff_escapingArgument :
    ∃ b, buildRoot (.ofSetup escapingArgument) escapingArgument.firstRoot .empty = .ok b ∧
      b.isResolved = true ∧
      ∃ block q n, (Query.ofRoot escapingArgument.firstRoot .empty).RetainsOutside
          (.ofSetup escapingArgument) block q ∧ q.Reuses (.ofSetup escapingArgument) n ∧
        ¬ b.graph.Guards
          (Opens (.ofSetup escapingArgument) escapingArgument.firstRoot .empty block) block n := by
  obtain ⟨b, hb, hresolved, start, es, k, hstart, hpath, hk, heager⟩ := escapingArgument_path
  refine ⟨b, hb, hresolved, Classical.byContradiction fun hnone => ?_⟩
  have hconfined := (confined_iff hb hresolved).mpr fun block q n hq hused =>
    Classical.byContradiction fun hnot => hnone ⟨block, q, n, hq, hused, hnot⟩
  obtain ⟨e, he, ho⟩ := hconfined 1 start hstart es k hpath hk
  cases (heager e he).symm.trans (opens_edge hb hresolved ho).2.1

/-- A path from a resolved root to an argument of a provider call need not go through the edge that
opens the block of the call. -/
theorem escapingArgument_not_confined :
    ¬ ∀ b, buildRoot (.ofSetup escapingArgument) escapingArgument.firstRoot .empty = .ok b →
      b.isResolved = true →
      Confined (.ofSetup escapingArgument) escapingArgument.firstRoot .empty b.graph := by
  intro hall
  obtain ⟨b, hb, hresolved, start, es, k, hstart, hpath, hk, heager⟩ := escapingArgument_path
  obtain ⟨e, he, ho⟩ := hall b hb hresolved 1 start hstart es k hpath hk
  cases (heager e he).symm.trans (opens_edge hb hresolved ho).2.1

end Wiring

end Injector
